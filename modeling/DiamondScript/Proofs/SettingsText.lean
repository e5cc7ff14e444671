import DiamondScript.Proofs.CatalogText
import DiamondScript.Settings

namespace DiamondScript

namespace Json

theorem hexDigit_spells : ∀ n < 16, HexDigit (hexDigit n) n := by
  have hdigits : ∀ n < 16, "0123456789abcdef".toList[n]? = some (hexDigit n) := by decide
  exact fun n hn => .inl (hdigits n hn)

theorem part_control {c : Char} (h : c.toNat < 32) :
    Part ['\\', 'u', '0', '0', hexDigit (c.toNat / 16), hexDigit c.toNat] c.toNat := by
  have hzero : HexDigit '0' 0 := hexDigit_spells 0 (by decide)
  have hlow : hexDigit c.toNat = hexDigit (c.toNat % 16) := by rw [hexDigit, hexDigit, Nat.mod_mod]
  have hvalue : ((0 * 16 + 0) * 16 + c.toNat / 16) * 16 + c.toNat % 16 = c.toNat := by omega
  have hquad := Quad.mk hzero hzero (hexDigit_spells (c.toNat / 16) (by omega))
    (hexDigit_spells (c.toNat % 16) (by omega))
  rw [hvalue, ← hlow] at hquad
  exact .code hquad

theorem part_escapeChar (c : Char) : Part (escapeChar c) c.toNat := by
  have hcode (k : Nat) (h : c.toNat = k) : c = Char.ofNat k := by rw [← h, Char.ofNat_toNat]
  have hown {e c : Char} (h : (e, c) ∈ escapes) : Part ['\\', e] c.toNat := .escape h
  unfold escapeChar
  split
  · next h => subst h; exact hown (by decide)
  split
  · next h => subst h; exact hown (by decide)
  split
  · next h => subst h; exact hown (by decide)
  split
  · next h => subst h; exact hown (by decide)
  split
  · next h => subst h; exact hown (by decide)
  split
  · next h => rw [hcode 8 h]; exact hown (by decide)
  split
  · next h => rw [hcode 12 h]; exact hown (by decide)
  split
  · next h => exact part_control h
  · next hquote hslash _ _ _ _ _ h => exact .plain (Nat.not_lt.mp h) hquote hslash

theorem literal_quote (s : String) : Literal (quote s) s := by
  refine ⟨s.toList.map escapeChar, ?_, by rw [quote, List.flatMap_def]⟩
  rw [List.forall₂_map_left_iff, List.forall₂_same]
  exact fun c _ => .one (part_escapeChar c)

theorem newline_blank (indent : Nat) : (newline indent).all isBlank := by
  simp [newline, isBlank]

variable {α β : Type} {element : List Char → β → Prop} {indent : Nat}

theorem sequence_prettyFields (outer : Nat) {field : String × Json}
    {fields : List (String × Json)} {label : β} {labels : List β}
    (h : List.Forall₂ (fun f b => element (quote f.1 ++ ':' :: ' ' :: pretty indent f.2) b)
      (field :: fields) (label :: labels)) {first : Bool} {separator : List Char}
    (hseparator : Separator first separator) :
    Sequence '}' element first
      (separator ++ (prettyFields indent (field :: fields) ++ (newline outer ++ ['}'])))
      (label :: labels) := by
  induction fields generalizing field label labels first separator with
  | nil =>
      obtain ⟨hfield, hlabels⟩ := List.forall₂_cons.mp h
      cases hlabels
      rw [prettyFields]
      exact .element hseparator hfield (.close (newline_blank outer))
  | cons next fields ih =>
      obtain ⟨hfield, hlabels⟩ := List.forall₂_cons.mp h
      obtain ⟨label', labels', -, -, rfl⟩ := List.forall₂_cons_left_iff.mp hlabels
      have hmore : Separator false ([] ++ ',' :: newline indent) := .more rfl (newline_blank indent)
      have hrest := Sequence.element hseparator hfield (ih hlabels hmore)
      rw [prettyFields]
      simpa only [List.append_assoc, List.cons_append, List.nil_append] using hrest

theorem labelled_pretty {entries : List (Entry α)} {a : α} {fields : List (String × Json)}
    (h : List.Forall₂ (fun f e => f.1 = e.name ∧ e.spells (pretty indent f.2) a)
      fields entries) :
    List.Forall₂ (fun f label => Labelled entries a (quote f.1 ++ ':' :: ' ' ::
      pretty indent f.2) label) fields (entries.map fun e => some e.name) := by
  rw [List.forall₂_map_right_iff, List.forall₂_iff_zip]
  refine ⟨h.length_eq, fun {f e} hmem => ?_⟩
  obtain ⟨hname, hvalue⟩ := (List.forall₂_iff_zip.mp h).2 hmem
  have hkey : Literal (quote f.1) e.name := hname ▸ literal_quote f.1
  exact .known (List.of_mem_zip hmem).2 hkey hvalue (@Member.mk _ _ [] [' '] rfl rfl)

/-- An object with every field of a record, in order, spells it. -/
theorem record_pretty {entries : List (Entry α)} (hdistinct : (entries.map Entry.name).Nodup)
    {a : α} {fields : List (String × Json)}
    (h : List.Forall₂ (fun f e => f.1 = e.name ∧ e.spells (pretty (indent + 1) f.2) a)
      fields entries) : Record entries (pretty indent (.obj fields)) a := by
  have hlabels := labelled_pretty h
  have hnames : (entries.map fun e => some e.name).filterMap id = entries.map Entry.name := by
    simp [List.filterMap_map]
  have homitted : ∀ e ∈ entries, some e.name ∉ entries.map (fun e => some e.name) →
      e.omissible a := fun e he hlabel => absurd (List.mem_map_of_mem he) hlabel
  rw [← hnames] at hdistinct
  generalize entries.map (fun e => some e.name) = labels at hlabels hdistinct homitted
  cases hlabels with
  | nil =>
      rw [pretty]
      exact .object (@Sequence.close _ _ _ _ [] rfl) hdistinct homitted
  | cons hlabel hlabels =>
      rw [pretty]
      exact .object (sequence_prettyFields indent (.cons hlabel hlabels)
        (.first (newline_blank (indent + 1)))) hdistinct homitted

end Json

namespace Settings

open Json Catalog

def entries : List (Entry Settings) :=
  [.defaulted "version" default.version Settings.version (SpellsUnsigned 32),
    .defaulted "actiondump" default.actiondump Settings.actiondump Literal,
    .defaulted "author" default.author Settings.author Literal,
    .defaulted "template_name" default.templateName Settings.templateName Literal,
    .defaulted "program_name" default.programName Settings.programName Literal,
    .defaulted "container_item" default.containerItem Settings.containerItem Literal,
    .defaulted "template_item" default.templateItem Settings.templateItem Literal]

def given (s : Settings) (names : List String) : Given where
  version := kept names "version" s.version
  actiondump := kept names "actiondump" s.actiondump
  author := kept names "author" s.author
  templateName := kept names "template_name" s.templateName
  programName := kept names "program_name" s.programName
  containerItem := kept names "container_item" s.containerItem
  templateItem := kept names "template_item" s.templateItem

theorem reads_settings : shape.Reads entries given where
  fields := by
    refine .cons (follows_field (fun _ _ => rfl) ?_ fun _ _ => takes_unsigned (by decide) _)
      (.cons (follows_field (fun _ _ => rfl) ?_ fun _ _ => takes_stringAs _)
        (.cons (follows_field (fun _ _ => rfl) ?_ fun _ _ => takes_string)
          (.cons (follows_field (fun _ _ => rfl) ?_ fun _ _ => takes_string)
            (.cons (follows_field (fun _ _ => rfl) ?_ fun _ _ => takes_string)
              (.cons (follows_field (fun _ _ => rfl) ?_ fun _ _ => takes_string)
                (.cons (follows_field (fun _ _ => rfl) ?_ fun _ _ => takes_string) .nil))))))
    all_goals
      intro s names
      simp [given, kept]
  distinct := by decide
  blank _ := rfl
  build s names h := by
    simp only [entries, Entry.defaulted, List.forall_mem_cons] at h
    obtain ⟨hversion, hactiondump, hauthor, htemplate, hprogram, hcontainer, hitem, -⟩ := h
    simp only [shape, given, getD_kept hversion, getD_kept hactiondump, getD_kept hauthor,
      getD_kept htemplate, getD_kept hprogram, getD_kept hcontainer, getD_kept hitem]

theorem record_toJson {s : Settings} (hversion : s.version < 2 ^ 32) :
    Record entries (s.toJson.pretty 0) s := by
  have hnat : SpellsUnsigned 32 (pretty 1 (.nat s.version)) s.version := by
    have hpretty : pretty 1 (.nat s.version) = intText s.version := rfl
    rw [hpretty, intText, if_neg (by omega), Int.natAbs_natCast]
    exact ⟨hversion, rfl⟩
  have hstr (text : String) : Literal (pretty 1 (.str text)) text := literal_quote text
  exact record_pretty (by decide) (.cons ⟨rfl, hnat⟩ (.cons ⟨rfl, hstr _⟩ (.cons ⟨rfl, hstr _⟩
    (.cons ⟨rfl, hstr _⟩ (.cons ⟨rfl, hstr _⟩ (.cons ⟨rfl, hstr _⟩
      (.cons ⟨rfl, hstr _⟩ .nil)))))))

theorem read_prettyText {s : Settings} (hversion : s.version < 2 ^ 32) :
    readFront shape.read s.toJson.prettyText = .ok s := by
  have hread : shape.read ([] ++ (s.toJson.pretty 0 ++ [])) = .ok (s, []) :=
    reads_settings.read (record_toJson hversion) rfl []
  rw [List.nil_append, List.append_nil] at hread
  rw [readFront, prettyText, String.toList_ofList, hread]
  rfl

end Settings

end DiamondScript
