import DiamondScript.Proofs.Packing
import DiamondScript.Proofs.SettingsText
import DiamondScript.Proofs.TreeRuns

namespace DiamondScript

open DiamondScript.Tree

theorem Path.isName_configName : IsName configName := ⟨by decide, by decide, by decide⟩

namespace Settings

variable {shown : Log.Record → Option String} {s s' : Session} {directory path : Path}
  {settings : Settings}

theorem settles_save (directory : Path) (settings : Settings) (s : Session) :
    Settles shown (save directory settings) s :=
  (settles_makeDirs directory s).bind fun _ s' _ => settles_atomicWrite _ _ s'

theorem run_readText {text : String}
    (hlook : s.tree.look path = some (.file (Text.utf8Bytes text))) :
    run shown (Files.readText path) s = (.ok text, s) := by
  rw [Files.readText, run_perform]
  change run shown (Job.onPath path (s.tree.read path) >>= _) s = _
  rw [read_eq_ok hlook, run_bind, run_onPath_eq_ok.mpr ⟨rfl, rfl⟩]
  dsimp only
  rw [Text.ofUtf8?_utf8Bytes]
  rfl

theorem run_loadFile {text : String}
    (hlook : s.tree.look path = some (.file (Text.utf8Bytes text)))
    (hread : Json.readFront shape.read text = .ok settings) :
    (run shown (loadFile path) s).1 =
      if settings.version ≤ supportedVersion then .ok settings
      else .error (.newerSettings path settings.version supportedVersion) := by
  have hexists : s.tree.exists? path = true := by rw [exists?_eq, hlook]; rfl
  rw [loadFile, run_perform]
  change (run shown (if s.tree.exists? path then _ else _) s).1 = _
  rw [if_pos hexists, run_bind, run_readText hlook]
  dsimp only
  rw [hread]
  dsimp only
  by_cases hold : settings.version ≤ supportedVersion
  · rw [if_neg (Nat.not_lt.mpr hold), if_pos hold]
    rfl
  · rw [if_pos (Nat.not_le.mp hold), if_neg hold]
    rfl

/-- Settings that were saved are loaded again, and settings that are too new are refused. -/
theorem load_save (shown : Log.Record → Option String) (directory : Path) (settings : Settings)
    (s : Session) (hversion : settings.version < 2 ^ 32) :
    (smooth shown (save directory settings).run s →
      ∃ s', run shown (save directory settings) s = (.ok (), s')) ∧
    ∀ s', run shown (save directory settings) s = (.ok (), s') →
      (run shown (load directory) s').1 =
        if settings.version ≤ supportedVersion then .ok settings
        else .error
          (.newerSettings (Path.configIn directory) settings.version supportedVersion) := by
  refine ⟨fun h => ?_, fun s' h => ?_⟩
  · obtain ⟨⟨⟩, s', hrun⟩ := settles_save directory settings s h
    exact ⟨s', hrun⟩
  · obtain ⟨_, s'', -, hwrite⟩ := run_bind_eq_ok.mp h
    have hlook := look_of_atomicWrite (Path.fileName?_join directory Path.isName_configName)
      (Path.lastPart_join_ne_nil directory Path.isName_configName) hwrite
    exact run_loadFile hlook (read_prettyText hversion)

/-- Over older settings, with characters that have to be escaped. -/
theorem load_save_overwritten :
    let settings := { Settings.default with author := "a\"\\\n\x01é", actiondump := "d/é.json" }
    let newer := { settings with version := 2 }
    let s : Session := .start ⟨[(["p"], .directory), (["p", "dfc.json"], .file [123, 125])]⟩
    ∃ s' s'', run (fun _ => none) (save "p" settings) s = (.ok (), s') ∧
      (run (fun _ => none) (load "p") s').1 = .ok settings ∧
      run (fun _ => none) (save "p" newer) s = (.ok (), s'') ∧
      (run (fun _ => none) (load "p") s'').1 = .error (.newerSettings "p/dfc.json" 2 1) := by
  intro settings newer s
  obtain ⟨hsaved, hloaded⟩ := load_save (fun _ => none) "p" settings s (by decide)
  obtain ⟨s', hrun⟩ := hsaved (by decide +kernel)
  obtain ⟨hsaved', hloaded'⟩ := load_save (fun _ => none) "p" newer s (by decide)
  obtain ⟨s'', hrun'⟩ := hsaved' (by decide +kernel)
  have hconfig : Path.configIn "p" = "p/dfc.json" := by decide +kernel
  refine ⟨s', s'', hrun, (hloaded s' hrun).trans (if_pos (by decide)), hrun', ?_⟩
  rw [hloaded' s'' hrun', if_neg (by decide), hconfig]
  rfl

end Settings

end DiamondScript
