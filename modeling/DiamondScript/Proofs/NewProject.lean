import DiamondScript.Project
import DiamondScript.Proofs.SavedSettings

namespace DiamondScript

open DiamondScript.Tree

theorem Path.isName_sourceName : IsName sourceName := ⟨by decide, by decide, by decide⟩

namespace Project

variable {shown : Log.Record → Option String} {s s' : Session} {directory path : Path}
  {α : Type}

section runs

theorem run_makeDirs_eq_ok (h : run shown (Files.makeDirs path) s = (.ok (), s')) :
    ∃ t, (makeDirs path).run s.tree = (.ok (), t) ∧ s' = { s with tree := t } := by
  rw [Files.makeDirs, run_perform] at h
  obtain ⟨hok, rfl⟩ := run_onPath_eq_ok.mp h
  exact ⟨((makeDirs path).run s.tree).2, Prod.ext hok rfl, rfl⟩

theorem run_makeDirs_there (h : path.isEmpty ∨ s.tree.isDirectory path) :
    run shown (Files.makeDirs path) s = (.ok (), s) := by
  rw [Files.makeDirs, run_perform]
  change run shown (Job.onPath path ((makeDirs path).run s.tree).1)
    { s with tree := ((makeDirs path).run s.tree).2 } = _
  rw [makeDirs_of_isDirectory h]
  rfl

def supply (path : Path) (make : Job Unit) (next : Bool → Job α) : Job α :=
  Job.perform (.probe path) >>= fun has => if !has then make >>= fun _ => next has else next has

theorem run_supply (make : Job Unit) (next : Bool → Job α) :
    run shown (supply path make next) s =
      if s.tree.exists? path then run shown (next true) s
      else run shown (make >>= fun _ => next false) s := by
  rw [supply, run_perform]
  change run shown (if !s.tree.exists? path then make >>= fun _ => next (s.tree.exists? path)
    else next (s.tree.exists? path)) s = _
  cases s.tree.exists? path <;> rfl

theorem settles_supply {make : Job Unit} {next : Bool → Job α}
    (hmake : ∀ s, Settles shown make s) (hnext : ∀ has s, Settles shown (next has) s) :
    Settles shown (supply path make next) s := by
  apply settles_perform
  intro _
  split
  · exact (hmake _).bind fun _ s' _ => hnext _ s'
  · exact hnext _ _

def report (directory : Path) (hasConfig hasSource : Bool) : Job (List Path) := do
  let written := (if hasConfig then [] else [Path.configIn directory]) ++
    (if hasSource then [] else [Path.sourceIn directory])
  Job.note ⟨.info, "dfc::project",
    s!"initialized project in {directory} ({written.length} new files)"⟩
  return written

theorem init_eq (directory : Path) : init directory =
    (Files.makeDirs directory >>= fun _ =>
      supply (Path.configIn directory) (Settings.save directory Settings.default) fun hasConfig =>
        supply (Path.sourceIn directory)
          (Files.writeText (Path.sourceIn directory) starterSource)
          (report directory hasConfig)) := rfl

theorem run_report (shown : Log.Record → Option String) (directory : Path)
    (hasConfig hasSource : Bool) (s : Session) :
    ∃ s', run shown (report directory hasConfig hasSource) s =
      (.ok ((if hasConfig then [] else [Path.configIn directory]) ++
        (if hasSource then [] else [Path.sourceIn directory])), s') ∧ s'.tree = s.tree :=
  ⟨_, rfl, rfl⟩

theorem settles_init (directory : Path) (s : Session) : Settles shown (init directory) s := by
  rw [init_eq]
  apply (settles_makeDirs directory s).bind
  intro _ _ _
  apply settles_supply (Settings.settles_save directory Settings.default)
  intro _ _
  apply settles_supply (settles_atomicWrite _ _)
  intro _ _
  exact settles_perform fun _ => settles_pure _ _

end runs

section supplied

inductive Supplies (t : Tree) (path : Path) (data : List UInt8) : Tree → Prop
  | there : t.exists? path → Supplies t path data t
  | missing {t' : Tree} : t.exists? path = false → Writes t path data t' → Supplies t path data t'

variable {t t' : Tree} {data : List UInt8}

theorem Supplies.keeps (h : Supplies t path data t') : Keeps t t' := by
  cases h with
  | there => exact Keeps.refl t
  | missing _ hwrites => exact hwrites.keeps

theorem Supplies.exists? (h : Supplies t path data t') : t'.exists? path := by
  cases h with
  | there hthere => exact hthere
  | missing _ hwrites =>
      rw [exists?_eq, hwrites.holds]
      rfl

theorem Supplies.kept (h : Supplies t path data t') {n : Node} (hlook : t.look path = some n) :
    t'.look path = some n := by
  cases h with
  | there => exact hlook
  | missing hnew =>
      rw [exists?_eq, hlook] at hnew
      cases hnew

theorem Supplies.look_eq (h : Supplies t path data t') {q : Path}
    (hq : t.exists? path = false → place q ∉ [place (Files.temporary path), place path]) :
    t'.look q = t.look q := by
  cases h with
  | there => rfl
  | missing hnew hwrites => exact hwrites.elsewhere q (hq hnew)

theorem Supplies.writes (h : Supplies t path data t') (hnew : t.exists? path = false) :
    Writes t path data t' := by
  cases h with
  | there hthere => simp [hthere] at hnew
  | missing _ hwrites => exact hwrites

theorem supply_eq_ok {name text : String} (hname : path.fileName? = some name)
    (hlast : path.lastPart ≠ []) {make : Job Unit} {next : Bool → Job α} {a : α}
    (hmake : run shown make s = run shown (Files.writeText path text) s)
    (h : run shown (supply path make next) s = (.ok a, s')) :
    ∃ s₁, Supplies s.tree path (Text.utf8Bytes text) s₁.tree ∧
      run shown (next (s.tree.exists? path)) s₁ = (.ok a, s') := by
  rw [run_supply] at h
  cases hexists : s.tree.exists? path with
  | true =>
      rw [if_pos hexists] at h
      exact ⟨s, .there hexists, h⟩
  | false =>
      rw [if_neg (by simp [hexists])] at h
      obtain ⟨⟨⟩, s₁, hwrite, h⟩ := run_bind_eq_ok.mp h
      rw [hmake] at hwrite
      exact ⟨s₁, .missing hexists (writes_of_atomicWrite hname hlast hexists hwrite), h⟩

theorem run_save_there (h : directory.isEmpty ∨ s.tree.isDirectory directory)
    (settings : Settings) :
    run shown (Settings.save directory settings) s =
      run shown (Files.writeText (Path.configIn directory) settings.toJson.prettyText) s := by
  rw [Settings.save, run_bind, run_makeDirs_there h]

theorem init_eq_ok {written : List Path} (h : run shown (init directory) s = (.ok written, s')) :
    ∃ made t, (makeDirs directory).run s.tree = (.ok (), made) ∧
      Supplies made (Path.configIn directory)
        (Text.utf8Bytes Settings.default.toJson.prettyText) t ∧
      Supplies t (Path.sourceIn directory) (Text.utf8Bytes starterSource) s'.tree ∧
      written = (if made.exists? (Path.configIn directory) then [] else [Path.configIn directory])
        ++ (if t.exists? (Path.sourceIn directory) then [] else [Path.sourceIn directory]) := by
  rw [init_eq] at h
  obtain ⟨⟨⟩, s₁, hdirs, h⟩ := run_bind_eq_ok.mp h
  obtain ⟨made, hmade, rfl⟩ := run_makeDirs_eq_ok hdirs
  have hthere : directory.isEmpty ∨
      ({ s with tree := made } : Session).tree.isDirectory directory := by
    have hdirectory := isDirectory_of_makeDirs (t := s.tree) (congrArg Prod.fst hmade)
    rwa [hmade] at hdirectory
  obtain ⟨s₁, hconfig, h⟩ := supply_eq_ok (Path.fileName?_join directory Path.isName_configName)
    (Path.lastPart_join_ne_nil directory Path.isName_configName)
    (run_save_there hthere Settings.default) h
  obtain ⟨s₂, hsource, h⟩ := supply_eq_ok (Path.fileName?_join directory Path.isName_sourceName)
    (Path.lastPart_join_ne_nil directory Path.isName_sourceName) rfl h
  obtain ⟨s₃, hreport, htree⟩ := run_report shown directory
    (made.exists? (Path.configIn directory)) (s₁.tree.exists? (Path.sourceIn directory)) s₂
  cases hreport.symm.trans h
  exact ⟨made, s₁.tree, hmade, hconfig, htree ▸ hsource, rfl⟩

end supplied

section places

theorem place_sibling_join {name ending : String} (hname : Path.IsName name)
    (hslash : '/' ∉ ending.toList) (hlong : 1 < ending.toList.length) (directory : Path) :
    place (Path.sibling (directory.join name) ending) = place directory ++ [name ++ ending] := by
  obtain ⟨up, hpath, hbeside⟩ := place_sibling (Path.fileName?_join directory hname)
  rw [place_join directory hname] at hpath
  rw [hbeside ending hslash hlong, List.append_cancel_right hpath]

/-- The two files of a project, what they are written to first, and what would keep them. -/
theorem places_in (directory : Path) :
    place (Path.configIn directory) = place directory ++ ["dfc.json"] ∧
      place (Files.temporary (Path.configIn directory)) = place directory ++ ["dfc.json.tmp"] ∧
      place (Files.backup (Path.configIn directory)) = place directory ++ ["dfc.json.bak"] ∧
      place (Path.sourceIn directory) = place directory ++ ["main.dfc"] ∧
      place (Files.temporary (Path.sourceIn directory)) = place directory ++ ["main.dfc.tmp"] ∧
      place (Files.backup (Path.sourceIn directory)) = place directory ++ ["main.dfc.bak"] := by
  refine ⟨place_join directory Path.isName_configName, ?_, ?_,
    place_join directory Path.isName_sourceName, ?_, ?_⟩
  · exact place_sibling_join Path.isName_configName (by decide) (by decide) directory
  · exact place_sibling_join Path.isName_configName (by decide) (by decide) directory
  · exact place_sibling_join Path.isName_sourceName (by decide) (by decide) directory
  · exact place_sibling_join Path.isName_sourceName (by decide) (by decide) directory

end places

abbrev filesIn (directory : Path) : List Path :=
  [Path.configIn directory, Path.sourceIn directory]

/-- What becomes of a tree when a project is made: first its directory is there, then its files
are. -/
structure Initialized (directory : Path) (before made after : Tree) (written : List Path) :
    Prop where
  grows : Grows before made
  listed : written = (filesIn directory).filter fun p => !made.exists? p
  present : ∀ p ∈ filesIn directory, after.exists? p
  kept : ∀ p ∈ filesIn directory, ∀ n, before.look p = some n → after.look p = some n
  config : Path.configIn directory ∈ written → after.look (Path.configIn directory) =
    some (.file (Text.utf8Bytes Settings.default.toJson.prettyText))
  source : Path.sourceIn directory ∈ written → after.look (Path.sourceIn directory) =
    some (.file (Text.utf8Bytes starterSource))
  clean : ∀ p ∈ written, after.look (Files.temporary p) = none
  backups : ∀ p ∈ filesIn directory, after.look (Files.backup p) = made.look (Files.backup p)
  elsewhere : ∀ q : Path, (∀ p ∈ written, place q ∉ [place (Files.temporary p), place p]) →
    after.look q = made.look q

/-- That the one file was supplied does not tell whether the other was there. -/
theorem exists?_sourceIn {made t : Tree} {data : List UInt8}
    (h : Supplies made (Path.configIn directory) data t) :
    t.exists? (Path.sourceIn directory) = made.exists? (Path.sourceIn directory) := by
  obtain ⟨hc, hct, -, hs, -⟩ := places_in directory
  rw [exists?_eq, exists?_eq, h.look_eq fun _ => by simp [hc, hct, hs]]

theorem written_eq_filter {made t : Tree} {data : List UInt8}
    (h : Supplies made (Path.configIn directory) data t) :
    (if made.exists? (Path.configIn directory) then [] else [Path.configIn directory]) ++
      (if t.exists? (Path.sourceIn directory) then [] else [Path.sourceIn directory]) =
      (filesIn directory).filter fun p => !made.exists? p := by
  rw [exists?_sourceIn h, filesIn, List.filter_cons, List.filter_cons]
  cases made.exists? (Path.configIn directory) <;>
    cases made.exists? (Path.sourceIn directory) <;> rfl

theorem initialized_of_supplies {made t t' : Tree} {before : Tree} {written : List Path}
    (hgrows : Grows before made)
    (hconfig : Supplies made (Path.configIn directory)
      (Text.utf8Bytes Settings.default.toJson.prettyText) t)
    (hsource : Supplies t (Path.sourceIn directory) (Text.utf8Bytes starterSource) t')
    (hwritten : written =
      (if made.exists? (Path.configIn directory) then [] else [Path.configIn directory]) ++
        (if t.exists? (Path.sourceIn directory) then [] else [Path.sourceIn directory])) :
    Initialized directory before made t' written := by
  obtain ⟨hc, hct, hcb, hs, hst, hsb⟩ := places_in directory
  have hlisted := hwritten.trans (written_eq_filter hconfig)
  have hconfigNew : Path.configIn directory ∈ written ↔
      made.exists? (Path.configIn directory) = false := by
    simp [hlisted]
  have hsourceNew : Path.sourceIn directory ∈ written ↔
      t.exists? (Path.sourceIn directory) = false := by
    simp [hlisted, exists?_sourceIn hconfig]
  have hlook {q : Path} (hq : place q ∉ [place directory ++ ["main.dfc.tmp"],
      place directory ++ ["main.dfc"]]) : t'.look q = t.look q :=
    hsource.look_eq fun _ => by rwa [hst, hs]
  have hlook' {q : Path} (hq : place q ∉ [place directory ++ ["dfc.json.tmp"],
      place directory ++ ["dfc.json"]]) : t.look q = made.look q :=
    hconfig.look_eq fun _ => by rwa [hct, hc]
  constructor
  case grows => exact hgrows
  case listed => exact hlisted
  case present =>
    refine List.forall_mem_cons.mpr ⟨?_, List.forall_mem_singleton.mpr hsource.exists?⟩
    rw [exists?_eq, hlook (by simp [hc]), ← exists?_eq]
    exact hconfig.exists?
  case kept =>
    refine List.forall_mem_cons.mpr ⟨fun n hn => ?_,
      List.forall_mem_singleton.mpr fun n hn => ?_⟩
    · rw [hlook (by simp [hc])]
      exact hconfig.kept (hgrows.look hn)
    · apply hsource.kept
      rw [hlook' (by simp [hs])]
      exact hgrows.look hn
  case config =>
    intro hmem
    rw [hlook (by simp [hc])]
    exact (hconfig.writes (hconfigNew.mp hmem)).holds
  case source =>
    intro hmem
    exact (hsource.writes (hsourceNew.mp hmem)).holds
  case clean =>
    intro p hp
    rcases List.mem_cons.mp (List.mem_filter.mp (hlisted ▸ hp)).1 with rfl | hsecond
    · rw [hlook (by simp [hct])]
      exact (hconfig.writes (hconfigNew.mp hp)).clean
    · obtain rfl := List.mem_singleton.mp hsecond
      exact (hsource.writes (hsourceNew.mp hp)).clean
  case backups =>
    refine List.forall_mem_cons.mpr ⟨?_, List.forall_mem_singleton.mpr ?_⟩
    · rw [hlook (by simp [hcb]), hlook' (by simp [hcb])]
    · rw [hlook (by simp [hsb]), hlook' (by simp [hsb])]
  case elsewhere =>
    intro q hq
    rw [hsource.look_eq fun hnew => hq _ (hsourceNew.mpr hnew),
      hconfig.look_eq fun hnew => hq _ (hconfigNew.mpr hnew)]

theorem init_there (hdirectory : directory.isEmpty ∨ s.tree.isDirectory directory)
    (hfiles : ∀ p ∈ filesIn directory, s.tree.exists? p) :
    ∃ s', run shown (init directory) s = (.ok [], s') ∧ s'.tree = s.tree := by
  obtain ⟨hconfig, hsource⟩ := List.forall_mem_cons.mp hfiles
  rw [List.forall_mem_singleton] at hsource
  rw [init_eq, run_bind, run_makeDirs_there hdirectory]
  dsimp only
  rw [run_supply, if_pos hconfig, run_supply, if_pos hsource]
  exact run_report shown directory true true s

/-- Making a project writes just the files that are missing once its directory is there. Nothing
that was there is lost, and the second time nothing is left to do. -/
theorem init_supplies (shown : Log.Record → Option String) (directory : Path) (s : Session) :
    (smooth shown (init directory).run s →
      ∃ written s', run shown (init directory) s = (.ok written, s')) ∧
    ∀ written s', run shown (init directory) s = (.ok written, s') →
      ∃ made, (makeDirs directory).run s.tree = (.ok (), made) ∧
        Initialized directory s.tree made s'.tree written ∧
        (Path.configIn directory ∈ written →
          (run shown (Settings.load directory) s').1 = .ok Settings.default) ∧
        ∃ s'', run shown (init directory) s' = (.ok [], s'') ∧ s''.tree = s'.tree := by
  refine ⟨settles_init directory s, fun written s' h => ?_⟩
  obtain ⟨made, t, hmade, hconfig, hsource, hwritten⟩ := init_eq_ok h
  have hgrows := grows_makeDirs directory s.tree
  have hdirectory := isDirectory_of_makeDirs (t := s.tree) (congrArg Prod.fst hmade)
  rw [hmade] at hgrows hdirectory
  have hresult := initialized_of_supplies hgrows hconfig hsource hwritten
  refine ⟨made, hmade, hresult, fun hnew => ?_, init_there ?_ hresult.present⟩
  · exact Settings.run_loadFile (hresult.config hnew) (Settings.read_prettyText (by decide))
  · refine hdirectory.imp id fun hthere => ?_
    have hkept := hsource.keeps.look_directory
      (hconfig.keeps.look_directory (isDirectory_iff.mp hthere))
    exact isDirectory_iff.mpr hkept

/-- Beside a source file and a temporary file that was left over. -/
theorem init_supplies_config :
    let s : Session := .start ⟨[(["p"], .directory), (["p", "main.dfc"], .file [47]),
      (["p", "dfc.json.tmp"], .file [0])]⟩
    ∃ s' s'', run (fun _ => none) (init "p") s = (.ok ["p/dfc.json"], s') ∧
      s'.tree.look "p/main.dfc" = some (.file [47]) ∧ s'.tree.look "p/dfc.json.tmp" = none ∧
      (run (fun _ => none) (Settings.load "p") s').1 = .ok Settings.default ∧
      run (fun _ => none) (init "p") s' = (.ok [], s'') := by
  intro s
  obtain ⟨hreturns, hleaves⟩ := init_supplies (fun _ => none) "p" s
  obtain ⟨written, s', hrun⟩ := hreturns (by decide +kernel)
  obtain ⟨made, hmade, hresult, hload, s'', hagain, -⟩ := hleaves written s' hrun
  obtain rfl : made = ((makeDirs "p").run s.tree).2 := by rw [hmade]
  obtain rfl : written = ["p/dfc.json"] := hresult.listed.trans (by decide +kernel)
  have htemporary : Files.temporary "p/dfc.json" = "p/dfc.json.tmp" := by decide +kernel
  have hclean := hresult.clean "p/dfc.json" List.mem_cons_self
  rw [htemporary] at hclean
  have hkept := hresult.kept "p/main.dfc" (by decide +kernel) (.file [47]) (by decide +kernel)
  exact ⟨s', s'', hrun, hkept, hclean, hload (by decide +kernel), hagain⟩

/-- A directory that is only made on the way to the project counts as one of its files. -/
theorem init_own_name :
    ¬ ∀ (directory : Path) (s s' : Session) (written : List Path),
      smooth (fun _ => none) (init directory).run s →
      run (fun _ => none) (init directory) s = (.ok written, s') →
      written = (filesIn directory).filter fun p => !s.tree.exists? p := by
  intro h
  have hwritten : (run (fun _ => none) (init "dfc.json/..") (.start .empty)).1.toOption =
      some ["dfc.json/../main.dfc"] := by decide +kernel
  cases hrun : run (fun _ => none) (init "dfc.json/..") (.start .empty) with
  | mk r s' =>
      rw [hrun] at hwritten
      cases r with
      | error => cases hwritten
      | ok written =>
          obtain rfl := Option.some.inj hwritten
          have hlisted := h "dfc.json/.." (.start .empty) s' _ (by decide +kernel) hrun
          exact absurd hlisted (by decide +kernel)

end Project

end DiamondScript
