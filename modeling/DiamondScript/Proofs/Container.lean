import DiamondScript.Delivery
import DiamondScript.Proofs.ItemData
import DiamondScript.Proofs.RoundTrip
import DiamondScript.Proofs.Wire

namespace DiamondScript.Delivery

open Nbt
open Json (isBlank Shows)

/-- The slot of an item and the data of the template that it carries. -/
def carried? (item : Nbt) : Option (Nat × Json) := do
  let slot ← (← item.field? "Slot").byte?
  let values ← (← item.field? "tag").field? "PublicBukkitValues"
  let text ← (← values.field? "hypercube:codetemplatedata").text?
  let data ← Json.parse? text
  some (slot, data)

/-- What the items in the container of a command carry. -/
def delivered? (command : String) : Option (List (Nat × Json)) := do
  let data ← Nbt.ofCommand? command
  let items ← (← (← data.field? "BlockEntityTag").field? "Items").items?
  items.mapM carried?

def itemData (id shown text : String) (slot : Nat) : Nbt :=
  .compound [("id", .text id), ("Slot", .text (toString slot ++ "b")), ("Count", .text "1b"),
    ("tag", .compound [("display", .compound [("Name", .text shown)]),
      ("PublicBukkitValues", .compound [("hypercube:codetemplatedata", .text text)])])]

theorem byte?_toString {n : Nat} (h : n ≤ 127) :
    (Nbt.text (toString n ++ "b")).byte? = some n := by
  have htext : (toString n ++ "b").toList = Nat.toDigits 10 n ++ ['b'] := by simp
  have hdigits : ∀ c ∈ Nat.toDigits 10 n, c.isDigit := fun _ hc =>
    Nat.isDigit_of_mem_toDigits (by decide) (by decide) hc
  rw [byte?, text?, Option.bind_eq_bind, Option.bind_some, htext]
  simpa [Nat.toDigits_ne_nil, Nat.ofDigitChars_ten_toDigits, h] using hdigits

theorem carried?_itemData {id shown text : String} {slot : Nat} (hslot : slot ≤ 127) {data : Json}
    (hdata : Json.parse? text = some data) :
    carried? (itemData id shown text slot) = some (slot, data) := by
  have hfields : carried? (itemData id shown text slot) =
      ((Nbt.text (toString slot ++ "b")).byte?.bind fun slot =>
        (Json.parse? text).bind fun data => some (slot, data)) := rfl
  rw [hfields, byte?_toString hslot, hdata]
  rfl

def shownName (slot : Nat) : String :=
  "\x7b\"text\":\"Template #" ++ toString (slot + 1) ++ "\", \"color\": \"aqua\"\x7d"

theorem toList_templateItem (settings : Settings) (slot : Nat) (code : String) :
    (templateItem settings slot code).toList =
      compoundText (fieldText "id".toList [' '] (quotedText '"' settings.templateItem.toList))
        [fieldText "Slot".toList [' '] (toString slot ++ "b").toList,
          fieldText "Count".toList [] "1b".toList,
          fieldText "tag".toList [] (compoundText
            (fieldText "display".toList [] (compoundText
              (fieldText "Name".toList [] (quotedText '\x27' (shownName slot).toList)) []))
            [fieldText "PublicBukkitValues".toList [] (compoundText
              (fieldText (quotedText '"' "hypercube:codetemplatedata".toList) []
                (quotedText '\x27' (templateData settings code).compactText.toList)) [])])] := by
  unfold templateItem shownName
  simp only [String.toList_append]
  generalize (toString slot).toList = number
  generalize (toString (slot + 1)).toList = next
  simp [compoundText, fieldText, quotedText]

theorem all_toString {p : Char → Bool} (h : ∀ c, c.isDigit → p c) (n : Nat) :
    (toString n).toList.all p := by
  refine List.all_eq_true.mpr fun c hc => ?_
  rw [Nat.toString_eq_ofList_toDigits, String.toList_ofList] at hc
  exact h c (Nat.isDigit_of_mem_toDigits (by decide) (by decide) hc)

theorem isPlain_of_isDigit {c : Char} (h : c.isDigit) : isPlain '\x27' c := by
  have hne (d : Char) (hd : d.isDigit = false) : c ≠ d := by
    rintro rfl
    rw [h] at hd
    cases hd
  simp [isPlain, hne '\x27' rfl, hne '\\' rfl]

theorem shownName_plain (slot : Nat) : (shownName slot).toList.all (isPlain '\x27') := by
  unfold shownName
  simp only [String.toList_append, List.all_append, Bool.and_eq_true]
  exact ⟨⟨rfl, all_toString (fun _ => isPlain_of_isDigit) (slot + 1)⟩, rfl⟩

theorem shows_front {settings : Settings} {id : List Char}
    (hid : Quotes '"' settings.templateItem.toList id) (slot depth : Nat) :
    Shows '}' (field (read depth))
        (fieldText "id".toList [' '] (quotedText '"' settings.templateItem.toList))
        ("id", .text (String.ofList id)) ∧
      Shows '}' (field (read depth)) (fieldText "Slot".toList [' '] (toString slot ++ "b").toList)
        ("Slot", .text (toString slot ++ "b")) ∧
      Shows '}' (field (read depth)) (fieldText "Count".toList [] "1b".toList)
        ("Count", .text "1b") := by
  have hbyte : (toString slot ++ "b").toList.all isWord := by
    rw [String.toList_append, List.all_append, Bool.and_eq_true]
    refine ⟨all_toString (fun c hc => ?_) slot, rfl⟩
    simp [isWord, Char.isAlphanum, hc]
  refine ⟨?_, ?_, ?_⟩
  · exact shows_field (names_word (by decide) rfl) (.inr rfl) (shows_quoted (.inl rfl) hid)
  · exact shows_field (names_word (by decide) rfl) (.inr rfl) (shows_word (by simp) hbyte)
  · exact shows_field (names_word (by decide) rfl) (.inl rfl)
      (shows_word (by decide) rfl)

theorem shows_display (slot depth : Nat) :
    Shows '}' (field (read (depth + 1))) (fieldText "display".toList [] (compoundText
      (fieldText "Name".toList [] (quotedText '\x27' (shownName slot).toList)) []))
      ("display", .compound [("Name", .text (shownName slot))]) := by
  refine shows_field (names_word (by decide) rfl) (.inl rfl)
    (shows_compound (.cons ?_ .nil))
  exact shows_field (names_word (by decide) rfl) (.inl rfl)
    (shows_plain (.inr rfl) (shownName_plain slot))

theorem shows_templateItem {settings : Settings} {code : String} {id : List Char}
    (hid : Quotes '"' settings.templateItem.toList id)
    (hdata : (templateData settings code).compactText.toList.all (isPlain '\x27'))
    (slot depth : Nat) :
    Shows ']' (read (depth + 3)) (templateItem settings slot code).toList
      (itemData (String.ofList id) (shownName slot) (templateData settings code).compactText
        slot) := by
  obtain ⟨hitem, hslot, hcount⟩ := shows_front hid slot (depth + 2)
  rw [toList_templateItem]
  refine shows_compound (.cons hitem (.cons hslot (.cons hcount (.cons ?_ .nil))))
  refine shows_field (names_word (by decide) rfl) (.inl rfl) ?_
  refine shows_compound (.cons (shows_display slot depth) (.cons ?_ .nil))
  refine shows_field (names_word (by decide) rfl) (.inl rfl)
    (shows_compound (.cons ?_ .nil))
  exact shows_field (names_quoted rfl) (.inl rfl) (shows_plain (.inr rfl) hdata)

/-- Whether a character needs no escaping in either kind of quotation marks. -/
def isBare (c : Char) : Bool := c ≠ '\x27' && c ≠ '"' && c ≠ '\\' && 32 ≤ c.toNat

def unescaped (s : String) : Bool := s.toList.all isBare

theorem isPlain_of_isBare {c : Char} (h : isBare c) : isPlain '\x27' c := by
  simp only [isBare, isPlain, Bool.and_eq_true] at h ⊢
  exact ⟨h.1.1.1, h.1.2⟩

theorem escapeChar_of_isBare {c : Char} (h : isBare c) : Json.escapeChar c = [c] := by
  simp only [isBare, ne_eq, Bool.and_eq_true, decide_eq_true_eq] at h
  obtain ⟨⟨⟨-, hquote⟩, hslash⟩, hlow⟩ := h
  have hne (d : Char) (hd : d.toNat < 32) : c ≠ d := by
    rintro rfl
    omega
  have h8 : c.toNat ≠ 8 := by omega
  have h12 : c.toNat ≠ 12 := by omega
  simp [Json.escapeChar, hquote, hslash, hne '\n' (by decide), hne '\r' (by decide),
    hne '\t' (by decide), h8, h12, hlow]

theorem flatMap_escapeChar {cs : List Char} (h : cs.all isBare) :
    cs.flatMap Json.escapeChar = cs := by
  rw [List.flatMap_congr fun c hc => escapeChar_of_isBare (List.all_eq_true.mp h c hc)]
  simp

theorem unescaped_encode (v : Json) : unescaped (Code.encode v) := by
  unfold unescaped Code.encode
  rw [String.toList_ofList]
  have hletter : ∀ n < 64, isBare (Base64.letter n) := by decide
  have hpad : isBare '=' := rfl
  exact List.all_eq_true.mpr (Base64.forall_mem_encode hletter hpad _)

def templateFields (settings : Settings) (code : String) : List (String × Json) :=
  [("author", .str settings.author), ("name", .str settings.templateName),
    ("version", .nat templateDataVersion), ("code", .str code)]

theorem parse?_templateData (settings : Settings) (code : String) :
    Json.parse? (templateData settings code).compactText =
      some (.object (templateFields settings code)) := by
  have hversion : Json.Returns (.nat templateDataVersion) :=
    Json.returns (.int 1) ⟨by decide, by decide⟩ nofun
  have hvalues : ∀ f ∈ templateFields settings code, Json.Returns f.2 := by
    simp [templateFields, Json.returns_str, hversion]
  have hdepth : (Json.obj (templateFields settings code)).depth ≤ Json.maxDepth :=
    Nat.le_add_left 1 126
  have hread := Json.readValue_fields hvalues hdepth []
  have htext : (templateData settings code).compactText.toList =
      (Json.obj (templateFields settings code)).compact := String.toList_ofList
  rw [List.append_nil] at hread
  rw [Json.parse?, htext, hread]
  rfl

theorem toList_templateData (settings : Settings) (code : String) :
    (templateData settings code).compactText.toList =
      '{' :: (Json.compactFields (templateFields settings code) ++ ['}']) := by
  rw [Json.compactText, String.toList_ofList]
  rfl

theorem quote_plain {s : String} (h : unescaped s) : (Json.quote s).all (isPlain '\x27') := by
  have hall : s.toList.all (isPlain '\x27') :=
    List.all_eq_true.mpr fun c hc => isPlain_of_isBare (List.all_eq_true.mp h c hc)
  rw [Json.quote, flatMap_escapeChar h, List.all_cons, List.all_append, hall]
  rfl

theorem fieldText_plain {key : String} {v : Json} (hkey : unescaped key)
    (hv : v.compact.all (isPlain '\x27')) :
    (Json.fieldText (key, v)).all (isPlain '\x27') := by
  rw [Json.fieldText, List.all_append, List.all_cons, quote_plain hkey, hv]
  rfl

theorem templateData_plain {settings : Settings} {code : String}
    (hauthor : unescaped settings.author) (hname : unescaped settings.templateName)
    (hcode : unescaped code) :
    (templateData settings code).compactText.toList.all (isPlain '\x27') := by
  have hfields : ∀ f ∈ templateFields settings code, (Json.fieldText f).all (isPlain '\x27') := by
    simp only [templateFields, List.forall_mem_cons]
    exact ⟨fieldText_plain rfl (quote_plain hauthor), fieldText_plain rfl (quote_plain hname),
      fieldText_plain rfl rfl, fieldText_plain rfl (quote_plain hcode), List.forall_mem_nil _⟩
  simp only [templateFields, List.forall_mem_cons] at hfields
  have hbrace : isPlain '\x27' '{' ∧ isPlain '\x27' '}' := ⟨rfl, rfl⟩
  have hcomma : isPlain '\x27' ',' := rfl
  rw [toList_templateData]
  simp [templateFields, Json.compactFields_cons, hfields, hbrace, hcomma]

/-- Settings whose texts stay within the quotation marks around them: the author and the name of a
template go through two layers, the name of a container ends at its data. -/
structure Quotable (settings : Settings) : Prop where
  author : unescaped settings.author
  templateName : unescaped settings.templateName
  templateItem : encloses '"' settings.templateItem.toList
  programName : encloses '\x27' settings.programName.toList
  containerItem : '{' ∉ settings.containerItem.toList

def shownProgram (name : String) : String :=
  "[\x7b\"text\": \"" ++ name ++ "\", \"color\": \"light_purple\", \"italic\": \"false\"\x7d]"

def containerText (settings : Settings) (codes : List String) : List Char :=
  compoundText (fieldText "BlockEntityTag".toList [] (compoundText (fieldText "Items".toList []
      (listText ((templateItems settings codes).map String.toList))) []))
    [fieldText "display".toList [] (compoundText (fieldText "Name".toList []
      (quotedText '\x27' (shownProgram settings.programName).toList)) [])]

theorem toList_command (settings : Settings) (codes : List String) :
    (command settings codes).toList =
      "/give @p ".toList ++ (settings.containerItem.toList ++ containerText settings codes) := by
  unfold command containerText shownProgram
  simp only [String.toList_append, String.toList_intercalate]
  generalize (templateItems settings codes).map String.toList = texts
  simp [compoundText, fieldText, quotedText, listText]

theorem exists_quotes_shownProgram {name : String} (h : encloses '\x27' name.toList) :
    ∃ s, Quotes '\x27' (shownProgram name).toList s := by
  obtain ⟨s, hs⟩ := exists_quotes h
  unfold shownProgram
  simp only [String.toList_append]
  exact ⟨_, ((quotes_plain rfl).append hs).append (quotes_plain rfl)⟩

theorem afterWord_append (word rest : List Char) :
    Json.afterWord word (word ++ rest) = some rest := by
  induction word with
  | nil => rfl
  | cons c word ih =>
      rw [List.cons_append, Json.afterWord, if_pos rfl]
      exact ih

def containerData (settings : Settings) (id shown : String) (codes : List String) : Nbt :=
  .compound [("BlockEntityTag", .compound [("Items", .list (codes.zipIdx.map fun e =>
      itemData id (shownName e.2) (templateData settings e.1).compactText e.2))]),
    ("display", .compound [("Name", .text shown)])]

theorem shows_containerText {settings : Settings} (h : Quotable settings) {codes : List String}
    (hcodes : ∀ code ∈ codes, unescaped code) :
    ∃ id shown, Shows ']' (read maxDepth) (containerText settings codes)
      (containerData settings id shown codes) := by
  obtain ⟨id, hid⟩ := exists_quotes h.templateItem
  obtain ⟨shown, hshown⟩ := exists_quotes_shownProgram h.programName
  have hitems : List.Forall₂ (Shows ']' (read 509))
      ((templateItems settings codes).map String.toList) (codes.zipIdx.map fun e =>
        itemData (String.ofList id) (shownName e.2) (templateData settings e.1).compactText
          e.2) := by
    rw [templateItems, List.map_map, List.forall₂_map_left_iff, List.forall₂_map_right_iff,
      List.forall₂_same]
    intro e he
    have hcode := hcodes e.1 (List.fst_mem_of_mem_zipIdx he)
    exact shows_templateItem hid (templateData_plain h.author h.templateName hcode) e.2 506
  refine ⟨String.ofList id, String.ofList shown, shows_compound (.cons ?_ (.cons ?_ .nil))⟩
  · refine shows_field (names_word (by decide) rfl) (.inl rfl)
      (shows_compound (.cons ?_ .nil))
    exact shows_field (names_word (by decide) rfl) (.inl rfl) (shows_list hitems)
  · refine shows_field (names_word (by decide) rfl) (.inl rfl)
      (shows_compound (.cons ?_ .nil))
    exact shows_field (names_word (by decide) rfl) (.inl rfl)
      (shows_quoted (.inr rfl) hshown)

theorem ofCommand?_eq {settings : Settings} (h : '{' ∉ settings.containerItem.toList)
    (codes : List String) :
    Nbt.ofCommand? (command settings codes) = (read maxDepth (containerText settings codes)).bind
      fun r => if r.2.isEmpty then some r.1 else none := by
  have hname : ∀ c ∈ settings.containerItem.toList, decide (c ≠ '{') := by
    intro c hc
    have hne : c ≠ '{' := fun heq => h (heq ▸ hc)
    exact decide_eq_true hne
  have hdata : (settings.containerItem.toList ++ containerText settings codes).dropWhile
      (· ≠ '{') = containerText settings codes := by
    rw [List.dropWhile_append_of_pos hname]
    rfl
  rw [Nbt.ofCommand?, toList_command, afterWord_append, Option.bind_eq_bind, Option.bind_some,
    hdata]
  rfl

theorem ofCommand?_command {settings : Settings} (h : Quotable settings) {codes : List String}
    (hcodes : ∀ code ∈ codes, unescaped code) :
    ∃ id shown, Nbt.ofCommand? (command settings codes) =
      some (containerData settings id shown codes) := by
  obtain ⟨id, shown, hshows⟩ := shows_containerText h hcodes
  have hread := hshows.reads [] nofun
  rw [List.append_nil] at hread
  refine ⟨id, shown, ?_⟩
  rw [ofCommand?_eq h.containerItem, hread]
  rfl

/-- The items of a command are read back one by one, each with its slot and the data of its
template. -/
theorem delivered?_command {settings : Settings} (h : Quotable settings) {codes : List String}
    (hcodes : ∀ code ∈ codes, unescaped code) (hcount : codes.length ≤ capacity) :
    delivered? (command settings codes) =
      some (codes.zipIdx.map fun e => (e.2, .object (templateFields settings e.1))) := by
  obtain ⟨id, shown, hdata⟩ := ofCommand?_command h hcodes
  have hitems : (codes.zipIdx.map fun e => itemData id (shownName e.2)
      (templateData settings e.1).compactText e.2).mapM carried? =
        some (codes.zipIdx.map fun e => (e.2, .object (templateFields settings e.1))) := by
    rw [mapM_eq_some_iff, List.forall₂_map_left_iff, List.forall₂_map_right_iff,
      List.forall₂_same]
    intro e he
    have hslot : e.2 < codes.length := by
      have := List.snd_lt_of_mem_zipIdx he
      simpa using this
    have hbyte : e.2 ≤ 127 := by
      have : capacity = 27 := rfl
      omega
    exact carried?_itemData hbyte (parse?_templateData settings e.1)
  rw [delivered?, hdata]
  exact hitems

theorem giveCommand_eq_ok {schema : Schema} {program : Program} {values : List Json}
    (hvalues : program.lines.mapM (Codeline.toJson schema) = .ok values)
    (hcount : program.lines.length ≤ capacity) (settings : Settings) :
    giveCommand schema settings program = .ok (command settings (values.map Code.encode)) := by
  rw [giveCommand, if_neg (Nat.not_lt.mpr hcount), encodeAll_eq, hvalues]
  rfl

/-- What a command carries. More lines than a container holds are refused. With fewer, and with
settings that stay within their quotation marks, the items in the command are those of the lines,
in their slots, each with the author, the name and the code of its line. -/
theorem giveCommand_carries (schema : Schema) (settings : Settings) (program : Program) :
    (capacity < program.lines.length → giveCommand schema settings program =
      .error (.tooManyLines program.lines.length capacity)) ∧
    (program.lines.length ≤ capacity → Quotable settings →
      (∀ line ∈ program.lines, ∃ v, line.toJson schema = .ok v) →
      ∃ text items, giveCommand schema settings program = .ok text ∧
        delivered? text = some items ∧ items.length = program.lines.length ∧
        ∀ (i : Nat) line, program.lines[i]? = some line → ∃ v data code,
          line.toJson schema = .ok v ∧ items[i]? = some (i, data) ∧
          data.field? "author" = some (.str settings.author) ∧
          data.field? "name" = some (.str settings.templateName) ∧
          data.field? "code" = some (.str code) ∧
          (line.WordSlots schema → (∀ x ∈ v.floats, Json.Kept x) → Code.decode code = .ok v)) := by
  constructor
  · intro hmany
    rw [giveCommand, if_pos hmany]
  · intro hcount hquotable hlines
    obtain ⟨values, hvalues⟩ := exists_mapM_eq_ok.mpr hlines
    have hpairs := mapM_eq_ok.mp hvalues
    have hlength : (values.map Code.encode).length = program.lines.length := by
      rw [List.length_map, hpairs.length_eq]
    have hcodes : ∀ code ∈ values.map Code.encode, unescaped code := by
      rw [List.forall_mem_map]
      exact fun v _ => unescaped_encode v
    refine ⟨_, _, giveCommand_eq_ok hvalues hcount settings,
      delivered?_command hquotable hcodes (hlength ▸ hcount), by simpa using hlength, ?_⟩
    intro i line hline
    obtain ⟨v, hv, hjson⟩ := forall₂_getElem? hpairs.flip hline
    refine ⟨v, .object (templateFields settings (Code.encode v)), Code.encode v, hjson, ?_, ?_, ?_,
      ?_, fun hslots hfloats => decode_line hjson hslots hfloats (Gzip.unpack_pack _)⟩
    · simp [hv]
    · rw [Json.field?_object]
      rfl
    · rw [Json.field?_object]
      rfl
    · rw [Json.field?_object]
      rfl

/-- Two lines, with a letter beyond the first 128 characters in the author's name and escaped
quotation marks in other texts; and a line too many. -/
theorem giveCommand_carries_two :
    let schema := Schema.ofCatalog ⟨[], [⟨"FUNCTION", "func"⟩]⟩
    let line (name : String) : Codeline := ⟨[⟨"func", some name, none, [], none, []⟩]⟩
    let settings : Settings := { Settings.default with
      author := "Zoë", programName := "It\\'s", templateItem := "a\\\"b" }
    Quotable settings ∧
    giveCommand schema settings ⟨List.replicate 28 (line "f")⟩ = .error (.tooManyLines 28 27) ∧
    ∃ text items v data code, giveCommand schema settings ⟨[line "f", line "g"]⟩ = .ok text ∧
      delivered? text = some items ∧ items.length = 2 ∧ (line "g").toJson schema = .ok v ∧
      items[1]? = some (1, data) ∧ data.field? "author" = some (.str "Zoë") ∧
      data.field? "name" = some (.str "&bDFCompiler Template") ∧
      data.field? "code" = some (.str code) ∧ Code.decode code = .ok v := by
  intro schema line settings
  have hquotable : Quotable settings :=
    ⟨by decide, by decide, by decide, by decide, by decide⟩
  have hmany := (giveCommand_carries schema settings ⟨List.replicate 28 (line "f")⟩).1 (by decide)
  obtain ⟨w, hw⟩ : ∃ w, (line "f").toJson schema = .ok w := ⟨_, by with_unfolding_all rfl⟩
  obtain ⟨u, hu, hfloats⟩ : ∃ u, (line "g").toJson schema = .ok u ∧ u.floats = [] :=
    ⟨_, by with_unfolding_all rfl, rfl⟩
  have hslots : (line "g").WordSlots schema := by
    have hitems : Codeblock.items schema ⟨"func", some "g", none, [], none, []⟩ = .ok [] := by
      with_unfolding_all rfl
    refine List.forall_mem_singleton.mpr fun items h => ?_
    cases hitems.symm.trans h
    exact List.forall_mem_nil _
  obtain ⟨text, items, htext, hread, hlength, hitems⟩ :=
    (giveCommand_carries schema settings ⟨[line "f", line "g"]⟩).2 (by decide) hquotable
      (List.forall_mem_cons.mpr ⟨⟨w, hw⟩, List.forall_mem_singleton.mpr ⟨u, hu⟩⟩)
  obtain ⟨v, data, code, hv, hitem, hauthor, hname, hcode, hdecode⟩ := hitems 1 _ rfl
  cases hu.symm.trans hv
  refine ⟨hquotable, hmany, text, items, u, data, code, htext, hread, hlength, hu, hitem, hauthor,
    hname, hcode, hdecode hslots ?_⟩
  rw [hfloats]
  exact List.forall_mem_nil _

theorem exists_templateData (settings : Settings) (code : String) :
    ∃ rest, (templateData settings code).compactText.toList =
      "\x7b\"author\":\"".toList ++ (settings.author.toList.flatMap Json.escapeChar ++ rest) := by
  obtain ⟨more, hmore⟩ : ∃ more,
      templateFields settings code = ("author", .str settings.author) :: more := ⟨_, rfl⟩
  refine ⟨'"' :: (more.flatMap (fun f => ',' :: Json.fieldText f) ++ ['}']), ?_⟩
  have hkey : Json.quote "author" = "\"author\"".toList := by decide
  rw [toList_templateData, hmore, Json.compactFields_cons, Json.fieldText, hkey, Json.compact,
    Json.scalar, Json.quote]
  · simp
  · simp
  · simp

/-- Nothing can be read if an apostrophe in the author's name stands before a character that does
not belong behind a text. -/
theorem delivered?_apostrophe {settings : Settings} {before after : List Char} {c : Char}
    (hauthor : settings.author.toList = before ++ '\x27' :: c :: after)
    (hbefore : before.all isBare) (hblank : isBlank c = false) (hcomma : c ≠ ',')
    (hclose : c ≠ '}') (hescape : Json.escapeChar c = [c])
    (hitem : encloses '"' settings.templateItem.toList)
    (hcontainer : '{' ∉ settings.containerItem.toList) (code : String) (codes : List String) :
    delivered? (command settings (code :: codes)) = none := by
  obtain ⟨rest, hdata⟩ := exists_templateData settings code
  have hescaped : settings.author.toList.flatMap Json.escapeChar =
      before ++ '\x27' :: c :: after.flatMap Json.escapeChar := by
    rw [hauthor, List.flatMap_append, List.flatMap_cons, List.flatMap_cons,
      flatMap_escapeChar hbefore, hescape]
    rfl
  rw [hescaped, List.append_assoc, List.cons_append, List.cons_append, ← List.append_assoc]
    at hdata
  have hplain : ("\x7b\"author\":\"".toList ++ before).all (isPlain '\x27') := by
    rw [List.all_append, Bool.and_eq_true]
    exact ⟨rfl, List.all_eq_true.mpr fun d hd =>
      isPlain_of_isBare (List.all_eq_true.mp hbefore d hd)⟩
  obtain ⟨id, hid⟩ := exists_quotes hitem
  obtain ⟨hfirst, hslot, hcount⟩ := shows_front hid 0 508
  have hbad : Breaks ']' (read 509) (templateItem settings 0 code).toList := by
    rw [toList_templateItem, hdata]
    refine breaks_compound (.cons hfirst (.cons hslot (.cons hcount .nil)))
      (breaks_field (names_word (by decide) rfl) ?_)
    refine breaks_compound (.cons (shows_display 0 506) .nil)
      (breaks_field (names_word (by decide) rfl) ?_)
    exact breaks_quoted (names_quoted rfl) (quotes_plain hplain) hblank hcomma hclose
  have hall : Breaks ']' (read maxDepth) (containerText settings (code :: codes)) := by
    refine breaks_compound_first (breaks_field (names_word (by decide) rfl) ?_) _
    refine breaks_compound_first (breaks_field (names_word (by decide) rfl) ?_) _
    exact breaks_list hbad _
  have hnone := hall.fails []
  rw [List.append_nil] at hnone
  rw [delivered?, ofCommand?_eq hcontainer, hnone]
  rfl

/-- The command of one line by an author whose name has an apostrophe cannot be read. -/
theorem giveCommand_apostrophe :
    let schema := Schema.ofCatalog ⟨[], [⟨"FUNCTION", "func"⟩]⟩
    let line : Codeline := ⟨[⟨"func", some "main", none, [], none, []⟩]⟩
    let settings : Settings := { Settings.default with author := "O'Brien" }
    (∃ v, line.toJson schema = .ok v) ∧
    ∃ text, giveCommand schema settings ⟨[line]⟩ = .ok text ∧ delivered? text = none := by
  intro schema line settings
  obtain ⟨v, hv⟩ : ∃ v, line.toJson schema = .ok v := ⟨_, by with_unfolding_all rfl⟩
  have hvalues : (⟨[line]⟩ : Program).lines.mapM (Codeline.toJson schema) = .ok [v] :=
    mapM_eq_ok.mpr (.cons hv .nil)
  have hauthor : settings.author.toList = ['O'] ++ '\x27' :: 'B' :: "rien".toList := by decide
  exact ⟨⟨v, hv⟩, _, giveCommand_eq_ok hvalues (by decide) settings,
    delivered?_apostrophe hauthor (by decide) rfl (by decide) (by decide) rfl (by decide)
      (by decide) _ _⟩

end DiamondScript.Delivery
