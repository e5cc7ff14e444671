import DiamondScript.Catalog.Schema
import DiamondScript.Proofs.Records

namespace DiamondScript

open Json

section fields

variable {α β σ : Type}

def Json.Entry.required (name : String) (get : α → β) (spells : List Char → β → Prop) : Entry α :=
  ⟨name, true, fun text a => spells text (get a), fun _ => False⟩

def Json.Entry.defaulted (name : String) (default : β) (get : α → β)
    (spells : List Char → β → Prop) : Entry α :=
  ⟨name, false, fun text a => spells text (get a), fun a => get a = default⟩

namespace Catalog

/-- What a state holds of a field once some are given. -/
def kept (given : List String) (name : String) (b : β) : Option β :=
  if name ∈ given then some b else none

theorem kept_cons_self (given : List String) (name : String) (b : β) :
    kept (name :: given) name b = some b :=
  if_pos List.mem_cons_self

theorem required_kept {given : List String} {name : String} (h : name ∉ given → False) (b : β) :
    required name (kept given name b) = .ok b := by
  rw [kept, if_pos (Classical.not_not.mp h)]
  rfl

theorem getD_kept {given : List String} {name : String} {b default : β}
    (h : name ∉ given → b = default) : (kept given name b).getD default = b := by
  by_cases hname : name ∈ given
  · rw [kept, if_pos hname, Option.getD_some]
  · rw [kept, if_neg hname, Option.getD_none, h hname]

theorem follows_field {state : α → List String → σ} {name : String} {inArray : Bool}
    {getState : σ → Option β} {set : σ → β → σ} {read : Reader β} {get : α → β}
    {spells : List Char → β → Prop} {omissible : α → Prop}
    (hget : ∀ a given, getState (state a given) = kept given name (get a))
    (hset : ∀ a given, set (state a given) (get a) = state a (name :: given))
    (hread : ∀ text b, spells text b → Takes read text b) :
    Follows state (field name inArray getState set read)
      ⟨name, inArray, fun text a => spells text (get a), omissible⟩ := by
  refine ⟨rfl, rfl, fun a given => ?_, fun a given text htext => ?_⟩
  · change (getState (state a given)).isSome = decide (name ∈ given)
    rw [hget, kept]
    split <;> simp_all
  · have htakes := hread text (get a) htext
    refine ⟨htakes.starts, fun {gap rest} hgap hrest => ?_⟩
    change (read _ >>= fun r => .ok (set (state a given) r.1, r.2)) = _
    rw [htakes.reads hgap hrest, ← hset]
    rfl

end Catalog

end fields

namespace Catalog

section records

def optionEntries : List (Entry String) := [.required "name" id Literal]

def tagEntries : List (Entry TagSpec) :=
  [.required "name" TagSpec.name Literal,
    .required "slot" TagSpec.slot (SpellsUnsigned 64),
    .required "defaultOption" TagSpec.defaultOption Literal,
    .defaulted "options" [] TagSpec.options (Listed (Record optionEntries))]

/-- An argument without a type either says so or says nothing, but not in an array. -/
def argumentEntries : List (Entry Argument) :=
  [⟨"type", true, fun text a => Nullable Literal text a.type, fun a => a.type = none⟩,
    .defaulted "plural" false Argument.plural SpellsBool,
    .defaulted "optional" false Argument.optional SpellsBool]

def iconEntries : List (Entry (List Argument)) :=
  [.defaulted "arguments" [] id (Listed (Record argumentEntries))]

def actionEntries : List (Entry Action) :=
  [.required "codeblockName" Action.category Literal,
    .required "name" Action.name Literal,
    .defaulted "tags" [] Action.tags (Listed (Record tagEntries)),
    .defaulted "icon" [] Action.arguments (Record iconEntries)]

def codeblockEntries : List (Entry Codeblock) :=
  [.required "name" Codeblock.name Literal,
    .required "identifier" Codeblock.identifier Literal]

def entries : List (Entry Catalog) :=
  [.defaulted "actions" [] Catalog.actions (Listed (Record actionEntries)),
    .defaulted "codeblocks" [] Catalog.codeblocks (Listed (Record codeblockEntries))]

/-- A text spells a catalog if a record of it stands in front, after blanks. -/
def Spells (text : String) (catalog : Catalog) : Prop :=
  ∃ gap body rest, gap.all isBlank ∧ Record entries body catalog ∧
    text.toList = gap ++ (body ++ rest)

end records

section shapes

theorem reads_option :
    optionShape.Reads optionEntries fun name given => kept given "name" name where
  fields := .cons (follows_field (fun _ _ => rfl) (fun _ _ => (kept_cons_self ..).symm)
    fun _ _ => takes_string) .nil
  distinct := by decide
  blank _ := rfl
  build name given h := required_kept (h _ List.mem_cons_self) name

def tagState (t : TagSpec) (given : List String) : TagState where
  name := kept given "name" t.name
  slot := kept given "slot" t.slot
  defaultOption := kept given "defaultOption" t.defaultOption
  options := kept given "options" t.options

theorem reads_tag : tagShape.Reads tagEntries tagState where
  fields := by
    refine .cons (follows_field (fun _ _ => rfl) ?_ fun _ _ => takes_string)
      (.cons (follows_field (fun _ _ => rfl) ?_ fun _ _ => takes_unsigned le_rfl _)
        (.cons (follows_field (fun _ _ => rfl) ?_ fun _ _ => takes_string)
          (.cons (follows_field (fun _ _ => rfl) ?_ fun _ _ => takes_list reads_option.takes)
            .nil)))
    all_goals
      intro t given
      simp [tagState, kept]
  distinct := by decide
  blank _ := rfl
  build t given h := by
    simp only [tagEntries, Entry.required, Entry.defaulted, List.forall_mem_cons] at h
    obtain ⟨hname, hslot, hdefault, hoptions, -⟩ := h
    simp only [tagShape, tagState, required_kept hname, required_kept hslot,
      required_kept hdefault, getD_kept hoptions]
    rfl

def argumentState (a : Argument) (given : List String) : ArgumentState where
  type := kept given "type" a.type
  plural := kept given "plural" a.plural
  optional := kept given "optional" a.optional

theorem reads_argument : argumentShape.Reads argumentEntries argumentState where
  fields := by
    have htype : ∀ text (type : Option String), Nullable Literal text type →
        Takes (readNullable readString) text type :=
      fun _ _ => takes_nullable (fun _ _ => takes_string) fun text s h => by
        obtain ⟨body, rfl, -⟩ := h.scanString
        simp
    refine .cons (follows_field (fun _ _ => rfl) ?_ htype)
      (.cons (follows_field (fun _ _ => rfl) ?_ fun _ _ => takes_bool)
        (.cons (follows_field (fun _ _ => rfl) ?_ fun _ _ => takes_bool) .nil))
    all_goals
      intro a given
      simp [argumentState, kept]
  distinct := by decide
  blank _ := rfl
  build a given h := by
    simp only [argumentEntries, Entry.defaulted, List.forall_mem_cons] at h
    obtain ⟨htype, hplural, hoptional, -⟩ := h
    simp only [argumentShape, argumentState, getD_kept htype, getD_kept hplural,
      getD_kept hoptional]

theorem reads_icon :
    iconShape.Reads iconEntries fun arguments given => kept given "arguments" arguments where
  fields := .cons (follows_field (fun _ _ => rfl) (fun _ _ => (kept_cons_self ..).symm)
    fun _ _ => takes_list reads_argument.takes) .nil
  distinct := by decide
  blank _ := rfl
  build arguments given h := congrArg Except.ok (getD_kept (h _ List.mem_cons_self))

def actionState (a : Action) (given : List String) : ActionState where
  category := kept given "codeblockName" a.category
  name := kept given "name" a.name
  tags := kept given "tags" a.tags
  arguments := kept given "icon" a.arguments

theorem reads_action : actionShape.Reads actionEntries actionState where
  fields := by
    refine .cons (follows_field (fun _ _ => rfl) ?_ fun _ _ => takes_string)
      (.cons (follows_field (fun _ _ => rfl) ?_ fun _ _ => takes_string)
        (.cons (follows_field (fun _ _ => rfl) ?_ fun _ _ => takes_list reads_tag.takes)
          (.cons (follows_field (fun _ _ => rfl) ?_ reads_icon.takes) .nil)))
    all_goals
      intro a given
      simp [actionState, kept]
  distinct := by decide
  blank _ := rfl
  build a given h := by
    simp only [actionEntries, Entry.required, Entry.defaulted, List.forall_mem_cons] at h
    obtain ⟨hcategory, hname, htags, hicon, -⟩ := h
    simp only [actionShape, actionState, required_kept hcategory, required_kept hname,
      getD_kept htags, getD_kept hicon]
    rfl

def codeblockState (c : Codeblock) (given : List String) : CodeblockState where
  name := kept given "name" c.name
  identifier := kept given "identifier" c.identifier

theorem reads_codeblock : codeblockShape.Reads codeblockEntries codeblockState where
  fields := by
    refine .cons (follows_field (fun _ _ => rfl) ?_ fun _ _ => takes_string)
      (.cons (follows_field (fun _ _ => rfl) ?_ fun _ _ => takes_string) .nil)
    all_goals
      intro c given
      simp [codeblockState, kept]
  distinct := by decide
  blank _ := rfl
  build c given h := by
    simp only [codeblockEntries, Entry.required, List.forall_mem_cons] at h
    obtain ⟨hname, hidentifier, -⟩ := h
    simp only [codeblockShape, codeblockState, required_kept hname, required_kept hidentifier]
    rfl

def catalogState (c : Catalog) (given : List String) : State where
  actions := kept given "actions" c.actions
  codeblocks := kept given "codeblocks" c.codeblocks

theorem reads_catalog : shape.Reads entries catalogState where
  fields := by
    refine .cons (follows_field (fun _ _ => rfl) ?_ fun _ _ => takes_list reads_action.takes)
      (.cons (follows_field (fun _ _ => rfl) ?_ fun _ _ => takes_list reads_codeblock.takes) .nil)
    all_goals
      intro c given
      simp [catalogState, kept]
  distinct := by decide
  blank _ := rfl
  build c given h := by
    simp only [entries, Entry.defaulted, List.forall_mem_cons] at h
    obtain ⟨hactions, hcodeblocks, -⟩ := h
    simp only [shape, catalogState, getD_kept hactions, getD_kept hcodeblocks]

end shapes

end Catalog

/-- Reading a document gives the catalog that it spells, and the schema of that catalog. -/
theorem Schema.ofJson_spelled {text : String} {catalog : Catalog}
    (h : Catalog.Spells text catalog) :
    Catalog.ofJson text = .ok catalog ∧
      Schema.ofJson text = .ok (Schema.ofCatalog catalog) := by
  obtain ⟨gap, body, rest, hgap, hbody, htext⟩ := h
  have hread : Catalog.ofJson text = .ok catalog := by
    rw [Catalog.ofJson, readFront, htext, Catalog.reads_catalog.read hbody hgap]
    rfl
  refine ⟨hread, ?_⟩
  rw [Schema.ofJson, hread]
  rfl

theorem spells_plain {cs : List Char}
    (h : cs.all fun c => 32 ≤ c.toNat && c ≠ '"' && c ≠ '\\') :
    List.Forall₂ SpellsChar (cs.map ([·])) cs := by
  rw [List.forall₂_map_left_iff, List.forall₂_same]
  intro c hc
  have hplain := List.all_eq_true.mp h c hc
  simp only [Bool.and_eq_true, decide_eq_true_eq] at hplain
  exact .one (.plain hplain.1.1 hplain.1.2 hplain.2)

theorem literal_plain (s : String)
    (h : s.toList.all fun c => 32 ≤ c.toNat && c ≠ '"' && c ≠ '\\') :
    Literal ('"' :: (s.toList ++ ['"'])) s :=
  ⟨s.toList.map ([·]), spells_plain h, by simp [← List.flatMap_def]⟩

theorem Schema.ofJson_spelled_mixed :
    let text := " \x7b\"note\" : [\x7b\"\\uD800\":1e9\x7d], " ++
      "\"codeblocks\":[[\"F\",\"\\u0066unc\"]],\"actions\":" ++
      "[\x7b\"name\":\"g\",\"icon\":[[\x7b\x7d]],\"codeblockName\":\"P\"\x7d]\x7d end"
    let catalog : Catalog := ⟨[⟨"P", "g", [], [⟨none, false, false⟩]⟩], [⟨"F", "func"⟩]⟩
    Catalog.Spells text catalog ∧ Catalog.ofJson text = .ok catalog ∧
      Schema.ofJson text = .ok (Schema.ofCatalog catalog) := by
  intro text catalog
  have hfirst : Separator true [] := .first rfl
  have hmore : Separator false [','] := @Separator.more [] [] rfl rfl
  have hend {β : Type} (close : Char) (element : List Char → β → Prop) (first : Bool) :
      Sequence close element first [close] [] := @Sequence.close _ _ _ _ [] rfl
  have hmember (key value : List Char) : Member key value (key ++ ':' :: value) :=
    @Member.mk key value [] [] rfl rfl
  have hdigit {d : Char} {n : Nat} (h : "0123456789ABCDEF".toList[n]? = some d) : HexDigit d n :=
    .inr h
  obtain ⟨note, hnote, hnoteText⟩ :
      ∃ note, Written 2 note ∧ note = "[\x7b\"\\uD800\":1e9\x7d]".toList := by
    have hcode : Part "\\uD800".toList 0xD800 :=
      .code (.mk (hdigit (n := 13) rfl) (hdigit (n := 8) rfl) (hdigit (n := 0) rfl)
        (hdigit (n := 0) rfl))
    have hkey : IsLiteral "\"\\uD800\"".toList :=
      ⟨["\\uD800".toList], List.forall_mem_singleton.mpr ⟨_, hcode⟩, rfl⟩
    have hnumber : IsNumeral "1e9".toList :=
      @IsNumeral.mk [] ['1'] [] ['e', '9'] List.mem_cons_self ⟨by simp, rfl⟩ nofun .none
        (@Exponent.some 'e' [] ['9'] (.inl rfl) List.mem_cons_self ⟨by simp, rfl⟩)
    have hvalue : Written 0 "1e9".toList := .number hnumber
    exact ⟨_, .inr (@Compound.array _ _ [()] (.element hfirst
      (.inr (@Compound.object _ _ [()] (.element hfirst ⟨_, _, hkey, hvalue, hmember _ _⟩
        (hend ..)))) (hend ..))), rfl⟩
  obtain ⟨block, hblock, hblockText⟩ :
      ∃ block, Record Catalog.codeblockEntries block ⟨"F", "func"⟩ ∧
        block = "[\"F\",\"\\u0066unc\"]".toList := by
    have hcode : Part "\\u0066".toList 'f'.toNat :=
      .code (.mk (hdigit (n := 0) rfl) (hdigit (n := 0) rfl) (hdigit (n := 6) rfl)
        (hdigit (n := 6) rfl))
    have hname : Literal "\"\\u0066unc\"".toList "func" :=
      ⟨"\\u0066".toList :: "unc".toList.map ([·]), .cons (.one hcode) (spells_plain rfl), rfl⟩
    exact ⟨_, @Record.array _ _ _ Catalog.codeblockEntries [] _ rfl
      (.element hfirst (literal_plain "F" rfl) (.element hmore hname (hend ..))) nofun, rfl⟩
  obtain ⟨action, haction, hactionText⟩ :
      ∃ action, Record Catalog.actionEntries action ⟨"P", "g", [], [⟨none, false, false⟩]⟩ ∧
        action = "\x7b\"name\":\"g\",\"icon\":[[\x7b\x7d]],\"codeblockName\":\"P\"\x7d".toList := by
    have hargument : Record Catalog.argumentEntries ['{', '}'] ⟨none, false, false⟩ :=
      @Record.object _ _ _ [] _ (hend ..) List.nodup_nil
        (by simp [Catalog.argumentEntries, Entry.defaulted])
    have harguments : Listed (Record Catalog.argumentEntries) ['[', '{', '}', ']']
        [⟨none, false, false⟩] :=
      ⟨_, rfl, @Sequence.element _ _ _ _ [] _ _ _ _ hfirst hargument (hend ..)⟩
    have hicon : Record Catalog.iconEntries ['[', '[', '{', '}', ']', ']']
        [⟨none, false, false⟩] :=
      @Record.array _ _ _ Catalog.iconEntries [] _ rfl
        (@Sequence.element _ _ _ _ [] ['[', '{', '}', ']'] _ _ _ hfirst harguments (hend ..)) nofun
    have hknown (e : Entry Catalog.Action) (he : e ∈ Catalog.actionEntries) (value : List Char)
        (hvalue : e.spells value ⟨"P", "g", [], [⟨none, false, false⟩]⟩)
        (hname : e.name.toList.all fun c => 32 ≤ c.toNat && c ≠ '"' && c ≠ '\\') :=
      Labelled.known he (literal_plain e.name hname) hvalue (hmember _ value)
    refine ⟨_, @Record.object _ _ _ [some "name", some "icon", some "codeblockName"] _
      (.element hfirst (hknown _ (.tail _ (.head _)) _ (literal_plain "g" rfl) rfl)
        (.element hmore (hknown _ (.tail _ (.tail _ (.tail _ (.head _)))) _ hicon rfl)
          (.element hmore (hknown _ (.head _) _ (literal_plain "P" rfl) rfl) (hend ..))))
      (by decide) ?_, rfl⟩
    simp [Catalog.actionEntries, Entry.required, Entry.defaulted]
  have hspells : Catalog.Spells text catalog := by
    refine ⟨[' '], _, " end".toList, rfl, @Record.object _ _ _
      [none, some "codeblocks", some "actions"] _
      (.element hfirst (.unknown (by decide) (literal_plain "note" rfl) hnote
          (@Member.mk _ _ [' '] [' '] rfl rfl))
        (.element (@Separator.more [] [' '] rfl rfl)
          (.known (.tail _ (.head _)) (literal_plain "codeblocks" rfl)
            ⟨_, rfl, .element hfirst hblock (hend ..)⟩ (hmember _ _))
          (.element hmore (.known (.head _) (literal_plain "actions" rfl)
              ⟨_, rfl, .element hfirst haction (hend ..)⟩ (hmember _ _)) (hend ..))))
      (by decide) ?_, ?_⟩
    · simp [Catalog.entries, Entry.defaulted]
    · rw [hnoteText, hblockText, hactionText]
      decide +kernel +zetaReduce
  exact ⟨hspells, Schema.ofJson_spelled hspells⟩

end DiamondScript
