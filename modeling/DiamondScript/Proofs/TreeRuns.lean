import DiamondScript.Proofs.Interruption
import DiamondScript.Proofs.TreeChanges

namespace DiamondScript

def Effect.refused : (e : Effect) → e.Answer → Bool
  | .create _, answer | .write _ _, answer | .sync _, answer | .rename _ _, answer
  | .makeDirs _, answer => !answer.isOk
  | .read _, answer => !answer.isOk
  | .probe _, _ | .note _, _ | .print _, _ => false

namespace Tree

variable {α β : Type}

def run (shown : Log.Record → Option String) (job : Job α) (s : Session) :
    Except Failure α × Session :=
  (Script.carryOut (handle shown) (ExceptT.run job)).run s

def smooth (shown : Log.Record → Option String) : Script α → Session → Bool
  | .done _, _ => true
  | .step e next, s =>
    !e.refused ((handle shown e).run s).1 &&
      smooth shown (next ((handle shown e).run s).1) ((handle shown e).run s).2

variable {shown : Log.Record → Option String} {s s' : Session} {path : Path} {e : Effect}
  {job : Job α} {next : α → Job β}

theorem run_perform (next : e.Answer → Job β) :
    run shown (Job.perform e >>= next) s =
      run shown (next ((handle shown e).run s).1) ((handle shown e).run s).2 := rfl

theorem run_bind (job : Job α) (next : α → Job β) (s : Session) :
    run shown (job >>= next) s =
      match run shown job s with
      | (.ok a, s') => run shown (next a) s'
      | (.error f, s') => (.error f, s') := by
  change (Script.carryOut (handle shown) (Script.bind job _)).run s =
    match (Script.carryOut (handle shown) job).run s with
    | (.ok a, s') => run shown (next a) s'
    | (.error f, s') => (.error f, s')
  induction job generalizing s with
  | done r => cases r <;> rfl
  | step e k ih => exact ih _ _

theorem run_bind_eq_ok {b : β} : run shown (job >>= next) s = (.ok b, s') ↔
    ∃ a s'', run shown job s = (.ok a, s'') ∧ run shown (next a) s'' = (.ok b, s') := by
  rw [run_bind]
  obtain ⟨f | a, s''⟩ := run shown job s
  · simp
  · simp

theorem run_onPath_eq_ok {r : Except OsError α} {a : α} :
    run shown (Job.onPath path r) s = (.ok a, s') ↔ r = .ok a ∧ s' = s := by
  cases r with
  | error e =>
      constructor
      · intro h
        cases congrArg Prod.fst h
      · rintro ⟨⟨⟩, -⟩
  | ok b =>
      constructor
      · intro h
        have hrun : ((.ok b : Except Failure α), s) = (.ok a, s') := h
        cases hrun
        exact ⟨rfl, rfl⟩
      · rintro ⟨⟨⟩, rfl⟩
        rfl

theorem run_update (f : Tree → Except OsError Tree) (s : Session) :
    (update f).run s = match f s.tree with
      | .ok t => (.ok (), { s with tree := t })
      | .error e => (.error e, s) := by
  simp only [update, StateT.run_bind, StateT.run_get, pure_bind]
  cases f s.tree <;> rfl

theorem update_eq_ok {f : Tree → Except OsError Tree} (h : ((update f).run s).1 = .ok ()) :
    ∃ t, f s.tree = .ok t ∧ ((update f).run s).2 = { s with tree := t } := by
  rw [run_update] at h ⊢
  cases hf : f s.tree with
  | ok t => exact ⟨t, rfl, rfl⟩
  | error e =>
      rw [hf] at h
      cases h

/-- A change that a plan cannot do without. -/
theorem run_change_eq_ok {f : Tree → Except OsError Tree} {next : Unit → Job β} {b : β}
    (h : run shown (Job.onPath path ((update f).run s).1 >>= next) ((update f).run s).2 =
      (.ok b, s')) :
    ∃ t, f s.tree = .ok t ∧ run shown (next ()) { s with tree := t } = (.ok b, s') := by
  obtain ⟨⟨⟩, s'', hchange, hnext⟩ := run_bind_eq_ok.mp h
  obtain ⟨hok, rfl⟩ := run_onPath_eq_ok.mp hchange
  obtain ⟨t, hf, hs⟩ := update_eq_ok hok
  exact ⟨t, hf, hs ▸ hnext⟩

variable {data : List UInt8}

theorem finish_eq_ok (h : run shown (Files.finish path) s = (.ok (), s')) :
    s.tree.rename (Files.temporary path) path = .ok s'.tree := by
  rw [Files.finish, run_perform] at h
  obtain ⟨hok, rfl⟩ := run_onPath_eq_ok.mp h
  obtain ⟨t, ht, hs⟩ := update_eq_ok hok
  exact ht.trans (congrArg (fun s : Session => Except.ok s.tree) hs.symm)

theorem replace_eq_ok (h : run shown (Files.replace path) s = (.ok (), s')) :
    ∃ t, (t = s.tree ∨ s.tree.exists? path ∧ s.tree.rename path (Files.backup path) = .ok t) ∧
      t.rename (Files.temporary path) path = .ok s'.tree := by
  rw [Files.replace, run_perform] at h
  change run shown (if s.tree.exists? path then Job.perform (.rename path (Files.backup path)) >>=
    fun _ => Files.finish path else Files.finish path) s = _ at h
  split at h
  · next hexists =>
      rw [run_perform] at h
      change run shown (Files.finish path) ((update fun t =>
        t.rename path (Files.backup path)).run s).2 = _ at h
      rw [run_update] at h
      cases hrename : s.tree.rename path (Files.backup path) with
      | ok t =>
          rw [hrename] at h
          exact ⟨t, .inr ⟨hexists, rfl⟩, finish_eq_ok h⟩
      | error e =>
          rw [hrename] at h
          exact ⟨s.tree, .inl rfl, finish_eq_ok h⟩
  · exact ⟨s.tree, .inl rfl, finish_eq_ok h⟩

theorem atomicWrite_eq_ok (h : run shown (Files.atomicWrite path data) s = (.ok (), s')) :
    ∃ t t' t'' : Tree, s.tree.write (Files.temporary path) [] = .ok t ∧
      t.write (Files.temporary path) data = .ok t' ∧
      (t'' = t' ∨ t'.exists? path ∧ t'.rename path (Files.backup path) = .ok t'') ∧
      t''.rename (Files.temporary path) path = .ok s'.tree := by
  rw [Files.atomicWrite, run_perform] at h
  obtain ⟨t, hcreate, h⟩ := run_change_eq_ok h
  rw [run_perform] at h
  obtain ⟨t', hwrite, h⟩ := run_change_eq_ok h
  rw [run_perform] at h
  obtain ⟨t'', hkept, hfinish⟩ := replace_eq_ok (s := { s with tree := t' }) h
  exact ⟨t, t', t'', hcreate, hwrite, hkept, hfinish⟩

section smooth

/-- A plan that gives up only where a step is refused. -/
def Settles (shown : Log.Record → Option String) (job : Job α) (s : Session) : Prop :=
  smooth shown (ExceptT.run job) s → ∃ a s', run shown job s = (.ok a, s')

theorem settles_pure (a : α) (s : Session) : Settles shown (pure a : Job α) s :=
  fun _ => ⟨a, s, rfl⟩

theorem settles_perform {next : e.Answer → Job β}
    (h : e.refused ((handle shown e).run s).1 = false →
      Settles shown (next ((handle shown e).run s).1) ((handle shown e).run s).2) :
    Settles shown (Job.perform e >>= next) s := by
  intro hsmooth
  have hboth : (!e.refused ((handle shown e).run s).1 &&
      smooth shown (ExceptT.run (next ((handle shown e).run s).1))
        ((handle shown e).run s).2) = true := hsmooth
  rw [Bool.and_eq_true, Bool.not_eq_true'] at hboth
  exact h hboth.1 hboth.2

theorem settles_onPath {r : Except OsError Unit} (hr : (!r.isOk) = false) (s : Session) :
    Settles shown (Job.onPath path r) s := by
  cases r with
  | ok => exact settles_pure () s
  | error => cases hr

theorem smooth_bind (x : Script α) (f : α → Script β) (s : Session) :
    smooth shown (x.bind f) s =
      (smooth shown x s && smooth shown (f ((Script.carryOut (handle shown) x).run s).1)
        ((Script.carryOut (handle shown) x).run s).2) := by
  induction x generalizing s with
  | done a => rfl
  | step e k ih =>
      rw [Script.bind, smooth, smooth, ih, Bool.and_assoc]
      rfl

theorem Settles.bind (h : Settles shown job s)
    (hnext : ∀ a s', run shown job s = (.ok a, s') → Settles shown (next a) s') :
    Settles shown (job >>= next) s := by
  intro hsmooth
  obtain ⟨hjob, hrest⟩ := Bool.and_eq_true_iff.mp ((smooth_bind ..).symm.trans hsmooth)
  obtain ⟨a, s', hrun⟩ := h hjob
  have hrun' : (Script.carryOut (handle shown) job).run s = (.ok a, s') := hrun
  rw [hrun'] at hrest
  obtain ⟨b, s'', hb⟩ := hnext a s' hrun hrest
  exact ⟨b, s'', run_bind_eq_ok.mpr ⟨a, s', hrun, hb⟩⟩

theorem settles_makeDirs (path : Path) (s : Session) : Settles shown (Files.makeDirs path) s :=
  settles_perform fun h => settles_onPath h _

theorem settles_replace (path : Path) (s : Session) : Settles shown (Files.replace path) s := by
  have hfinish (s : Session) : Settles shown (Files.finish path) s :=
    settles_perform fun h => settles_onPath h _
  apply settles_perform
  intro _
  change Settles shown (if s.tree.exists? path then
    Job.perform (.rename path (Files.backup path)) >>= fun _ => Files.finish path
    else Files.finish path) s
  split
  · exact settles_perform fun _ => hfinish _
  · exact hfinish s

theorem settles_atomicWrite (path : Path) (data : List UInt8) (s : Session) :
    Settles shown (Files.atomicWrite path data) s := by
  apply settles_perform
  intro hcreate
  apply (settles_onPath hcreate _).bind
  intro _ _ _
  apply settles_perform
  intro hwrite
  apply (settles_onPath hwrite _).bind
  intro _ _ _
  apply settles_perform
  intro _
  exact settles_replace path _

end smooth

section replaced

variable {name : String}

theorem append_prefix_iff {up : Place} {a b : String} : up ++ [a] <+: up ++ [b] ↔ a = b := by
  rw [List.prefix_append_right_inj]
  constructor
  · rintro ⟨rest, h⟩
    exact (List.cons.inj h).1
  · rintro rfl
    exact List.prefix_rfl

theorem places_beside (hname : path.fileName? = some name) :
    ∃ up, place path = up ++ [name] ∧ place (Files.temporary path) = up ++ [name ++ ".tmp"] ∧
      place (Files.backup path) = up ++ [name ++ ".bak"] := by
  obtain ⟨up, hpath, hbeside⟩ := place_sibling hname
  exact ⟨up, hpath, hbeside _ (by decide) (by decide), hbeside _ (by decide) (by decide)⟩

theorem place_temporary_ne (hname : path.fileName? = some name) :
    place (Files.temporary path) ≠ place path := by
  obtain ⟨up, hpath, htemporary, -⟩ := places_beside hname
  rw [hpath, htemporary]
  simp

variable {t t' : Tree}

/-- Neither the old file nor its backup is in the way of the new content. -/
theorem node?_temporary_of_rename (hname : path.fileName? = some name)
    (h : t.rename path (Files.backup path) = .ok t') :
    t'.node? (place (Files.temporary path)) = t.node? (place (Files.temporary path)) := by
  obtain ⟨-, n, -, -, rfl⟩ := rename_eq_ok h
  obtain ⟨up, hpath, htemporary, hbackup⟩ := places_beside hname
  split
  · rfl
  · apply node?_move_apart
    · rw [hpath, htemporary, append_prefix_iff, eq_comm]
      simp
    · rw [hbackup, htemporary, append_prefix_iff]
      simp

theorem rename_temporary (hname : path.fileName? = some name) (hlast : path.lastPart ≠ [])
    (hnode : t.node? (place (Files.temporary path)) = some (.file data))
    (h : t.rename (Files.temporary path) path = .ok t') :
    t.locate path = .ok (place path) ∧ t.node? (place path) ≠ some .directory ∧
      t' = t.move (place (Files.temporary path)) (place path) ∧
      t'.look path = some (.file data) := by
  obtain ⟨hnew, n, hlook, hfile, hmove⟩ := rename_eq_ok h
  have hne := place_temporary_ne hname
  rw [if_neg hne] at hmove
  subst hmove
  obtain rfl : n = .file data := Option.some.inj ((look_eq_some.mp hlook).2.symm.trans hnode)
  have htarget := hfile nofun
  have hsource : t.node? (place (Files.temporary path)) ≠ some .directory := by simp [hnode]
  have hlocate := locate_of_locateNew_name hlast hnew
  have hkeeps := (sameBut_move hsource htarget).keeps
    (List.forall_mem_cons.mpr ⟨hsource, List.forall_mem_singleton.mpr htarget⟩)
  refine ⟨hlocate, htarget, rfl, look_eq_some.mpr ⟨hkeeps.locate hlocate, ?_⟩⟩
  rw [node?_move_target hne hsource htarget, hnode]

theorem look_of_atomicWrite (hname : path.fileName? = some name) (hlast : path.lastPart ≠ [])
    (h : run shown (Files.atomicWrite path data) s = (.ok (), s')) :
    s'.tree.look path = some (.file data) := by
  obtain ⟨t, t', t'', -, hwrite, hkept, hrename⟩ := atomicWrite_eq_ok h
  obtain ⟨-, hne, rfl⟩ := write_eq_ok hwrite
  have hnode := node?_put_self hne (.file data)
  rcases hkept with rfl | ⟨-, hbackup⟩
  · exact (rename_temporary hname hlast hnode hrename).2.2.2
  · rw [← node?_temporary_of_rename hname hbackup] at hnode
    exact (rename_temporary hname hlast hnode hrename).2.2.2

/-- What a file that was not there before leaves when it is written. -/
structure Writes (t : Tree) (path : Path) (data : List UInt8) (t' : Tree) : Prop where
  holds : t'.look path = some (.file data)
  clean : t'.look (Files.temporary path) = none
  keeps : Keeps t t'
  elsewhere : ∀ q : Path, place q ∉ [place (Files.temporary path), place path] →
    t'.look q = t.look q

theorem sameBut_write_twice {t t' t'' : Tree} {old : List UInt8}
    (h : t.write path old = .ok t') (h' : t'.write path data = .ok t'') :
    SameBut [place path] t t'' ∧ t.node? (place path) ≠ some .directory ∧
      t''.node? (place path) = some (.file data) := by
  obtain ⟨-, hne, rfl⟩ := write_eq_ok h
  obtain ⟨-, hne', rfl⟩ := write_eq_ok h'
  have hsame := (sameBut_put t (place path) (.file old)).trans (keeps_put hne _)
    (sameBut_put _ (place path) (.file data))
  refine ⟨fun p hp hmem => hsame p hp ?_, hne, node?_put_self hne' _⟩
  rw [List.mem_append, or_self]
  exact hmem

theorem look_eq_none (h : t.node? (place path) = none) : t.look path = none := by
  rw [Option.eq_none_iff_forall_ne_some]
  intro n hlook
  rw [(look_eq_some.mp hlook).2] at h
  cases h

/-- A file that is moved to its place after it was written beside it. -/
theorem writes_of_rename {t t' t'' : Tree} (hname : path.fileName? = some name)
    (hlast : path.lastPart ≠ []) (hput : SameBut [place (Files.temporary path)] t t')
    (hbefore : t.node? (place (Files.temporary path)) ≠ some .directory)
    (hnode : t'.node? (place (Files.temporary path)) = some (.file data))
    (hrename : t'.rename (Files.temporary path) path = .ok t'') : Writes t path data t'' := by
  have hdistinct := place_temporary_ne hname
  have hfile : t'.node? (place (Files.temporary path)) ≠ some .directory := by simp [hnode]
  obtain ⟨hlocate, htarget, hmove, hlook⟩ := rename_temporary hname hlast hnode hrename
  have hgone : t''.node? (place (Files.temporary path)) = none := by
    obtain ⟨up, hpath, htemporary, -⟩ := places_beside hname
    rw [hmove]
    apply node?_move_source hfile
    rw [hpath, htemporary, append_prefix_iff, eq_comm]
    simp
  have hback := (hput.keeps_back (List.forall_mem_singleton.mpr hfile)).locate hlocate
  have habsent : t.node? (place path) ≠ some .directory := by
    rw [← hput _ (reaches_of_locate hback) (by simpa using hdistinct.symm)]
    exact htarget
  have hsame := hput.trans (hput.keeps (List.forall_mem_singleton.mpr hbefore))
    (hmove ▸ sameBut_move hfile htarget)
  have hold : ∀ p ∈ [place (Files.temporary path)] ++ [place (Files.temporary path), place path],
      t.node? p ≠ some .directory := by
    simp [hbefore, habsent]
  have hleft : ∀ p ∈ [place (Files.temporary path)] ++ [place (Files.temporary path), place path],
      t''.node? p ≠ some .directory := by
    simp [hgone, (look_eq_some.mp hlook).2]
  refine ⟨hlook, look_eq_none hgone, hsame.keeps hold, fun q hq => ?_⟩
  apply hsame.look_eq hold hleft
  simpa using hq

theorem writes_of_atomicWrite (hname : path.fileName? = some name) (hlast : path.lastPart ≠ [])
    (hnew : s.tree.exists? path = false)
    (h : run shown (Files.atomicWrite path data) s = (.ok (), s')) :
    Writes s.tree path data s'.tree := by
  obtain ⟨t, t', t'', hcreate, hwrite, hkept, hrename⟩ := atomicWrite_eq_ok h
  obtain ⟨hput, hbefore, hnode⟩ := sameBut_write_twice hcreate hwrite
  have hfresh : t'.exists? path = false := by
    rw [exists?_eq] at hnew ⊢
    rw [hput.look_eq (List.forall_mem_singleton.mpr hbefore)
      (List.forall_mem_singleton.mpr (by simp [hnode]))
      (by simpa using (place_temporary_ne hname).symm)]
    exact hnew
  -- A file that was not there before is not kept.
  obtain rfl : t'' = t' := hkept.resolve_right (by simp [hfresh])
  exact writes_of_rename hname hlast hput hbefore hnode hrename

end replaced

end Tree

end DiamondScript
