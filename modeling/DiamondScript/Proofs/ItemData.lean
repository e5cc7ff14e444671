import DiamondScript.Proofs.JsonText
import DiamondScript.Table

namespace DiamondScript

open Json (isBlank skipBlank readSeparated afterColon Shows Ends)

inductive Nbt where
  | text (s : String)
  | list (items : List Nbt)
  | compound (fields : List (String × Nbt))

namespace Nbt

/-- What stands before the next quotation mark; a backslash takes the next character as it is. -/
def quoted (mark : Char) : List Char → Option (List Char × List Char)
  | [] => none
  | '\\' :: c :: rest => (quoted mark rest).map fun r => (c :: r.1, r.2)
  | c :: rest =>
    if c = mark then some ([], rest) else (quoted mark rest).map fun r => (c :: r.1, r.2)

def isWord (c : Char) : Bool := c.isAlphanum || c = '_' || c = '-' || c = '.' || c = '+'

def textOf : List Char → Option (List Char × List Char)
  | '"' :: rest => quoted '"' rest
  | '\x27' :: rest => quoted '\x27' rest
  | cs =>
    if (cs.takeWhile isWord).isEmpty then none
    else some (cs.takeWhile isWord, cs.dropWhile isWord)

def field (value : List Char → Option (Nbt × List Char)) (cs : List Char) :
    Option ((String × Nbt) × List Char) := do
  let (name, rest) ← textOf cs
  let rest ← afterColon rest
  let (v, rest) ← value rest
  some ((String.ofList name, v), rest)

def read (depth : Nat) (cs : List Char) : Option (Nbt × List Char) :=
  match skipBlank cs with
  | '{' :: rest =>
    match depth with
    | 0 => none
    | depth + 1 => (readSeparated '}' (field (read depth)) (rest.length + 1) true rest).map
        fun r => (.compound r.1, r.2)
  | '[' :: rest =>
    match depth with
    | 0 => none
    | depth + 1 => (readSeparated ']' (read depth) (rest.length + 1) true rest).map
        fun r => (.list r.1, r.2)
  | cs => (textOf cs).map fun r => (.text (String.ofList r.1), r.2)

def maxDepth : Nat := 512

/-- The data in a command that gives an item: what stands behind the item's name. -/
def ofCommand? (command : String) : Option Nbt := do
  let rest ← Json.afterWord "/give @p ".toList command.toList
  let (v, rest) ← read maxDepth (rest.dropWhile (· ≠ '{'))
  if rest.isEmpty then some v else none

def field? (name : String) : Nbt → Option Nbt
  | .compound fields => Table.find? fields name
  | _ => none

def items? : Nbt → Option (List Nbt)
  | .list items => some items
  | _ => none

def text? : Nbt → Option String
  | .text s => some s
  | _ => none

def byte? (v : Nbt) : Option Nat := do
  let s ← v.text?
  let digits := s.toList.dropLast
  let n := Nat.ofDigitChars 10 digits 0
  if s.toList.getLast? = some 'b' ∧ digits ≠ [] ∧ digits.all Char.isDigit ∧ n ≤ 127 then some n
  else none

/-- What quotation marks around a text make of it. -/
def Quotes (mark : Char) (cs s : List Char) : Prop :=
  ∀ tail, quoted mark (cs ++ tail) = (quoted mark tail).map fun r => (s ++ r.1, r.2)

section quotes

variable {mark : Char}

theorem Quotes.append {cs s cs' s' : List Char} (h : Quotes mark cs s) (h' : Quotes mark cs' s') :
    Quotes mark (cs ++ cs') (s ++ s') := by
  intro tail
  rw [List.append_assoc, h, h']
  simp [Option.map_map, Function.comp_def]

def isPlain (mark c : Char) : Bool := c ≠ mark && c ≠ '\\'

theorem quoted_plain {c : Char} (h : isPlain mark c) (rest : List Char) :
    quoted mark (c :: rest) = (quoted mark rest).map fun r => (c :: r.1, r.2) := by
  simp only [isPlain, ne_eq, Bool.and_eq_true, decide_eq_true_eq] at h
  rw [quoted, if_neg h.1]
  rintro _ _ rfl
  exact absurd rfl h.2

theorem quotes_plain {cs : List Char} (h : cs.all (isPlain mark)) : Quotes mark cs cs := by
  intro tail
  induction cs with
  | nil => simp
  | cons c cs ih =>
      rw [List.all_cons, Bool.and_eq_true] at h
      rw [List.cons_append, quoted_plain h.1, ih h.2]
      simp [Option.map_map, Function.comp_def]

/-- Whether a text may stand between quotation marks: none of them is bare in it, and no backslash
at its end would take the closing one. -/
def encloses (mark : Char) : List Char → Bool
  | [] => true
  | '\\' :: _ :: rest => encloses mark rest
  | c :: rest => isPlain mark c && encloses mark rest

theorem exists_quotes {cs : List Char} (h : encloses mark cs) : ∃ s, Quotes mark cs s := by
  fun_induction encloses mark cs with
  | case1 => exact ⟨[], quotes_plain rfl⟩
  | case2 c rest ih =>
      obtain ⟨s, hs⟩ := ih h
      refine ⟨c :: s, fun tail => ?_⟩
      rw [List.cons_append, List.cons_append, quoted, hs]
      simp [Option.map_map, Function.comp_def]
  | case3 c rest _ ih =>
      rw [Bool.and_eq_true] at h
      obtain ⟨s, hs⟩ := ih h.2
      have hone : Quotes mark [c] [c] := quotes_plain (by simpa using h.1)
      exact ⟨[c] ++ s, hone.append hs⟩

end quotes

theorem read_text {c : Char} (hblank : isBlank c = false) (hbrace : c ≠ '{') (hbracket : c ≠ '[')
    (depth : Nat) (cs : List Char) :
    read depth (c :: cs) = (textOf (c :: cs)).map fun r => (.text (String.ofList r.1), r.2) := by
  rw [read.eq_def, Json.skipBlank_cons hblank]
  split
  · next heq => exact absurd (List.cons.inj heq).1 hbrace
  · next heq => exact absurd (List.cons.inj heq).1 hbracket
  · rfl

theorem read_brace (depth : Nat) (rest : List Char) :
    read (depth + 1) ('{' :: rest) =
      (readSeparated '}' (field (read depth)) (rest.length + 1) true rest).map
        fun r => (.compound r.1, r.2) := by
  rw [read.eq_def]
  rfl

theorem read_bracket (depth : Nat) (rest : List Char) :
    read (depth + 1) ('[' :: rest) =
      (readSeparated ']' (read depth) (rest.length + 1) true rest).map
        fun r => (.list r.1, r.2) := by
  rw [read.eq_def]
  rfl

theorem textOf_quote {mark : Char} (hmark : mark = '"' ∨ mark = '\x27') (cs : List Char) :
    textOf (mark :: cs) = quoted mark cs := by
  rcases hmark with rfl | rfl <;> rfl

theorem textOf_word {cs : List Char} (hne : cs ≠ []) (hall : cs.all isWord) {rest : List Char}
    (hrest : ∀ c ∈ rest.head?, isWord c = false) : textOf (cs ++ rest) = some (cs, rest) := by
  have h := List.all_eq_true.mp hall
  have hnone : rest.takeWhile isWord = [] ∧ rest.dropWhile isWord = rest := by
    cases rest with
    | nil => exact ⟨rfl, rfl⟩
    | cons c rest => simp [hrest c rfl]
  have htake : (cs ++ rest).takeWhile isWord = cs := by
    rw [List.takeWhile_append_of_pos h, hnone.1, List.append_nil]
  have hdrop : (cs ++ rest).dropWhile isWord = rest := by
    rw [List.dropWhile_append_of_pos h, hnone.2]
  obtain ⟨c, cs, rfl⟩ := List.exists_cons_of_ne_nil hne
  have hc : isWord c := h c List.mem_cons_self
  rw [List.cons_append] at htake hdrop ⊢
  rw [textOf, htake, hdrop, List.isEmpty_cons, if_neg Bool.false_ne_true]
  · rintro _ ⟨rfl, -⟩
    exact absurd hc (by decide)
  · rintro _ ⟨rfl, -⟩
    exact absurd hc (by decide)

theorem ne_of_isWord {c d : Char} (h : isWord c) (hd : isWord d = false) : c ≠ d := by
  rintro rfl
  rw [h] at hd
  cases hd

theorem isBlank_of_isWord {c : Char} (h : isWord c) : isBlank c = false := by
  have hne (d : Char) (hd : isWord d = false) : c ≠ d := ne_of_isWord h hd
  simp [isBlank, hne ' ' rfl, hne '\n' rfl, hne '\t' rfl, hne '\r' rfl]

def quotedText (mark : Char) (cs : List Char) : List Char := mark :: (cs ++ [mark])

def fieldText (key gap text : List Char) : List Char := key ++ ':' :: (gap ++ text)

def compoundText (text : List Char) (texts : List (List Char)) : List Char :=
  '{' :: (text ++ (texts.flatMap (fun text => ',' :: ([' '] ++ text)) ++ ['}']))

def listText (texts : List (List Char)) : List Char :=
  '[' :: (List.intercalate [','] texts ++ [']'])

section shows

variable {depth : Nat}

theorem shows_word {s : String} (hne : s.toList ≠ []) (h : s.toList.all isWord) :
    Shows ']' (read depth) s.toList (.text s) := by
  obtain ⟨c, cs, hcs⟩ := List.exists_cons_of_ne_nil hne
  have hc : isWord c := List.all_eq_true.mp h c (hcs ▸ List.mem_cons_self)
  refine ⟨⟨c, cs, hcs, isBlank_of_isWord hc, ne_of_isWord hc rfl⟩, fun rest hrest => ?_⟩
  have hends : ∀ d ∈ rest.head?, isWord d = false := by
    intro d hd
    rcases hrest d hd with rfl | rfl | rfl <;> rfl
  have htext := textOf_word hne h hends
  have hread : read depth (s.toList ++ rest) =
      (textOf (s.toList ++ rest)).map fun r => (.text (String.ofList r.1), r.2) := by
    rw [hcs]
    exact read_text (isBlank_of_isWord hc) (ne_of_isWord hc rfl) (ne_of_isWord hc rfl) _ _
  rw [hread, htext, Option.map_some, String.ofList_toList]

theorem shows_quoted {mark : Char} (hmark : mark = '"' ∨ mark = '\x27') {cs s : List Char}
    (h : Quotes mark cs s) :
    Shows ']' (read depth) (quotedText mark cs) (.text (String.ofList s)) := by
  have hne : isBlank mark = false ∧ mark ≠ ']' ∧ mark ≠ '{' ∧ mark ≠ '[' ∧ mark ≠ '\\' := by
    rcases hmark with rfl | rfl <;> decide
  refine ⟨⟨mark, _, rfl, hne.1, hne.2.1⟩, fun rest _ => ?_⟩
  have hclose : quoted mark (mark :: rest) = some ([], rest) := by
    rw [quoted, if_pos rfl]
    rintro _ _ rfl
    exact absurd rfl hne.2.2.2.2
  rw [quotedText, List.cons_append, List.append_assoc, List.singleton_append,
    read_text hne.1 hne.2.2.1 hne.2.2.2.1, textOf_quote hmark, h, hclose]
  simp

theorem shows_plain {mark : Char} (hmark : mark = '"' ∨ mark = '\x27') {s : String}
    (h : s.toList.all (isPlain mark)) :
    Shows ']' (read depth) (quotedText mark s.toList) (.text s) := by
  have hshows : Shows ']' (read depth) _ _ := shows_quoted hmark (quotes_plain h)
  rwa [String.ofList_toList] at hshows

theorem shows_compound {text : List Char} {texts : List (List Char)} {f : String × Nbt}
    {fields : List (String × Nbt)}
    (h : List.Forall₂ (Shows '}' (field (read depth))) (text :: texts) (f :: fields)) :
    Shows ']' (read (depth + 1)) (compoundText text texts) (.compound (f :: fields)) := by
  refine ⟨⟨'{', _, rfl, rfl, by decide⟩, fun rest _ => ?_⟩
  have hgap : ∀ c ∈ [' '], isBlank c := List.forall_mem_singleton.mpr rfl
  have hread := Json.readSeparated_texts (.inr rfl) hgap h rest
  rw [compoundText, List.cons_append, List.append_assoc, List.append_assoc, List.singleton_append,
    read_brace, hread]
  rfl

theorem intercalate_comma (text : List Char) (texts : List (List Char)) :
    List.intercalate [','] (text :: texts) =
      text ++ texts.flatMap fun text => ',' :: ([] ++ text) := by
  induction texts generalizing text with
  | nil => simp
  | cons next texts ih =>
      rw [List.intercalate_cons_cons, ih, List.flatMap_cons]
      simp

theorem shows_list {texts : List (List Char)} {items : List Nbt}
    (h : List.Forall₂ (Shows ']' (read depth)) texts items) :
    Shows ']' (read (depth + 1)) (listText texts) (.list items) := by
  refine ⟨⟨'[', _, rfl, rfl, by decide⟩, fun rest _ => ?_⟩
  rw [listText, List.cons_append, List.append_assoc, List.singleton_append, read_bracket]
  cases h with
  | nil =>
      rw [List.intercalate_nil, List.nil_append, Json.readSeparated_close rfl]
      rfl
  | cons head more =>
      have hread := Json.readSeparated_texts (.inl rfl) (List.forall_mem_nil _)
        (.cons head more) rest
      rw [intercalate_comma, List.append_assoc, hread]
      rfl

theorem read_blank (depth : Nat) (cs : List Char) : read depth (' ' :: cs) = read depth cs := by
  rw [read.eq_def, read.eq_def depth cs]
  rfl

structure Names (key : List Char) (name : String) : Prop where
  starts : ∃ c rest, key = c :: rest ∧ isBlank c = false ∧ c ≠ '}'
  reads : ∀ rest, textOf (key ++ ':' :: rest) = some (name.toList, ':' :: rest)

theorem names_word {name : String} (hne : name.toList ≠ []) (h : name.toList.all isWord) :
    Names name.toList name := by
  obtain ⟨c, cs, hcs⟩ := List.exists_cons_of_ne_nil hne
  have hc : isWord c := List.all_eq_true.mp h c (hcs ▸ List.mem_cons_self)
  refine ⟨⟨c, cs, hcs, isBlank_of_isWord hc, ne_of_isWord hc rfl⟩, fun rest => ?_⟩
  refine textOf_word hne h ?_
  rintro _ ⟨⟩
  rfl

theorem names_quoted {name : String} (h : name.toList.all (isPlain '"')) :
    Names (quotedText '"' name.toList) name := by
  refine ⟨⟨'"', _, rfl, rfl, by decide⟩, fun rest => ?_⟩
  rw [quotedText, List.cons_append, List.append_assoc, textOf_quote (.inl rfl), quotes_plain h]
  simp [quoted]

theorem field_names {key : List Char} {name : String} (hkey : Names key name)
    (value : List Char → Option (Nbt × List Char)) (rest : List Char) :
    field value (key ++ ':' :: rest) = (value rest).map fun r => ((name, r.1), r.2) := by
  have hcolon : afterColon (':' :: rest) = some rest := rfl
  rw [field, hkey.reads]
  cases hvalue : value rest <;> simp [hcolon, hvalue]

theorem shows_field {key : List Char} {name : String} (hkey : Names key name) {gap : List Char}
    (hgap : gap = [] ∨ gap = [' ']) {text : List Char} {v : Nbt}
    (h : Shows ']' (read depth) text v) :
    Shows '}' (field (read depth)) (fieldText key gap text) (name, v) := by
  obtain ⟨c, cs, hcs, hblank, hclose⟩ := hkey.starts
  refine ⟨⟨c, fieldText cs gap text, by rw [hcs]; rfl, hblank, hclose⟩, fun rest hrest => ?_⟩
  have hvalue : read depth (gap ++ (text ++ rest)) = some (v, rest) := by
    rcases hgap with rfl | rfl
    · exact h.reads rest hrest
    · exact (read_blank depth _).trans (h.reads rest hrest)
  rw [fieldText, List.append_assoc, List.cons_append, List.append_assoc, field_names hkey, hvalue]
  rfl

end shows

section breaks

variable {depth : Nat}

/-- A text that cannot be read, whatever follows it. -/
structure Breaks {α : Type} (close : Char) (element : List Char → Option (α × List Char))
    (text : List Char) : Prop where
  starts : ∃ c rest, text = c :: rest ∧ isBlank c = false ∧ c ≠ close
  fails : ∀ rest, element (text ++ rest) = none

theorem breaks_field {key : List Char} {name : String} (hkey : Names key name) {text : List Char}
    (h : Breaks ']' (read depth) text) :
    Breaks '}' (field (read depth)) (fieldText key [] text) := by
  obtain ⟨c, cs, hcs, hblank, hclose⟩ := hkey.starts
  refine ⟨⟨c, fieldText cs [] text, by rw [hcs]; rfl, hblank, hclose⟩, fun rest => ?_⟩
  rw [fieldText, List.append_assoc, List.cons_append, List.nil_append, field_names hkey,
    h.fails rest]
  rfl

theorem breaks_first {α : Type} {close : Char} {element : List Char → Option (α × List Char)}
    {text : List Char} (h : Breaks close element text) (rest : List Char) (n : Nat) :
    readSeparated close element n true (text ++ rest) = none := by
  obtain ⟨c, cs, rfl, hblank, hclose⟩ := h.starts
  have hfails : element (c :: (cs ++ rest)) = none := h.fails rest
  cases n with
  | zero => rfl
  | succ n =>
      rw [readSeparated, List.cons_append, Json.skipBlank_cons hblank]
      simp [Json.elementStart, hclose, hfails]

theorem ends_fields (texts : List (List Char)) (rest : List Char) :
    Ends (texts.flatMap (fun text => ',' :: ([' '] ++ text)) ++ ',' :: rest) := by
  intro c hc
  cases texts <;> cases hc <;> exact .inl rfl

theorem breaks_more {bad : List Char} (hbad : Breaks '}' (field (read depth)) bad)
    {texts : List (List Char)} {fields : List (String × Nbt)}
    (h : List.Forall₂ (Shows '}' (field (read depth))) texts fields) (rest : List Char) (n : Nat) :
    readSeparated '}' (field (read depth)) n false
      (texts.flatMap (fun text => ',' :: ([' '] ++ text)) ++ ',' :: ([' '] ++ (bad ++ rest))) =
        none := by
  have hgap : ∀ c ∈ [' '], isBlank c := List.forall_mem_singleton.mpr rfl
  induction h generalizing n with
  | nil =>
      obtain ⟨c, cs, rfl, hblank, hclose⟩ := hbad.starts
      have hfails : field (read depth) (c :: (cs ++ rest)) = none := hbad.fails rest
      cases n with
      | zero => rfl
      | succ n =>
          have hskip : skipBlank (' ' :: c :: (cs ++ rest)) = c :: (cs ++ rest) :=
            Json.skipBlank_cons hblank _
          rw [List.flatMap_nil, List.nil_append, readSeparated, Json.skipBlank_cons rfl]
          simp [Json.elementStart, hclose, hskip, hfails]
  | @cons text f texts fields head _ ih =>
      cases n with
      | zero => rfl
      | succ n =>
          rw [List.flatMap_cons, List.cons_append, List.cons_append, List.append_assoc,
            List.append_assoc, (head.readSeparated (ends_fields texts _) n).2 (by decide) _ hgap,
            ih n]
          rfl

theorem breaks_compound {text bad : List Char} {texts : List (List Char)} {f : String × Nbt}
    {fields : List (String × Nbt)}
    (h : List.Forall₂ (Shows '}' (field (read depth))) (text :: texts) (f :: fields))
    (hbad : Breaks '}' (field (read depth)) bad) :
    Breaks ']' (read (depth + 1)) (compoundText text (texts ++ [bad])) := by
  refine ⟨⟨'{', _, rfl, rfl, by decide⟩, fun rest => ?_⟩
  obtain ⟨head, more⟩ := List.forall₂_cons.mp h
  have htext : text ++ ((texts ++ [bad]).flatMap (fun text => ',' :: ([' '] ++ text)) ++ ['}']) ++
      rest = text ++ (texts.flatMap (fun text => ',' :: ([' '] ++ text)) ++
        ',' :: ([' '] ++ (bad ++ '}' :: rest))) := by
    simp
  rw [compoundText, List.cons_append, read_brace, htext,
    (head.readSeparated (ends_fields texts _) _).1, breaks_more hbad more]
  rfl

theorem breaks_compound_first {text : List Char} (h : Breaks '}' (field (read depth)) text)
    (texts : List (List Char)) : Breaks ']' (read (depth + 1)) (compoundText text texts) := by
  refine ⟨⟨'{', _, rfl, rfl, by decide⟩, fun rest => ?_⟩
  rw [compoundText, List.cons_append, read_brace, List.append_assoc, breaks_first h]
  rfl

theorem breaks_list {text : List Char} (h : Breaks ']' (read depth) text)
    (texts : List (List Char)) : Breaks ']' (read (depth + 1)) (listText (text :: texts)) := by
  refine ⟨⟨'[', _, rfl, rfl, by decide⟩, fun rest => ?_⟩
  rw [listText, List.cons_append, read_bracket, intercalate_comma, List.append_assoc,
    List.append_assoc, breaks_first h]
  rfl

/-- A text that ends too early, before a character that may not follow it. -/
theorem breaks_quoted {key : List Char} {name : String} (hkey : Names key name)
    {cs s after : List Char} (hcs : Quotes '\x27' cs s) {c : Char} (hblank : isBlank c = false)
    (hcomma : c ≠ ',') (hclose : c ≠ '}') :
    Breaks ']' (read (depth + 1))
      (compoundText (fieldText key [] (quotedText '\x27' (cs ++ '\x27' :: c :: after))) []) := by
  refine ⟨⟨'{', _, rfl, rfl, by decide⟩, fun rest => ?_⟩
  obtain ⟨d, ds, hds, hstart, hend⟩ := hkey.starts
  have htext : fieldText key [] (quotedText '\x27' (cs ++ '\x27' :: c :: after)) ++
      (List.flatMap (fun text => ',' :: ([' '] ++ text)) [] ++ ['}']) ++ rest =
        key ++ ':' :: '\x27' :: (cs ++ '\x27' :: c :: (after ++ '\x27' :: '}' :: rest)) := by
    simp [fieldText, quotedText]
  have hfield : field (read depth)
      (key ++ ':' :: '\x27' :: (cs ++ '\x27' :: c :: (after ++ '\x27' :: '}' :: rest))) =
        some ((name, .text (String.ofList s)), c :: (after ++ '\x27' :: '}' :: rest)) := by
    rw [field_names hkey, read_text rfl (by decide) (by decide), textOf_quote (.inr rfl), hcs]
    simp [quoted]
  have hnext (n : Nat) : readSeparated '}' (field (read depth)) n false
      (c :: (after ++ '\x27' :: '}' :: rest)) = none := by
    cases n with
    | zero => rfl
    | succ n =>
        rw [readSeparated, Json.skipBlank_cons hblank]
        simp [Json.elementStart, hcomma, hclose]
  rw [compoundText, List.cons_append, read_brace, htext]
  rw [hds, List.cons_append] at hfield ⊢
  rw [readSeparated, Json.skipBlank_cons hstart]
  simp [Json.elementStart, hend, hfield, hnext]

end breaks

end Nbt
end DiamondScript
