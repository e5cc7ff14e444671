import DiamondScript.Proofs.Spelling

namespace DiamondScript.Json

variable {α β σ : Type}

/-- A reader takes a value off the front of a text, with the blanks before it and whatever cannot
continue it behind. -/
structure Takes (read : Reader α) (text : List Char) (a : α) : Prop where
  starts : ∃ c rest, text = c :: rest ∧ isBlank c = false ∧ c ≠ ']'
  reads : ∀ {gap rest : List Char}, gap.all isBlank → Stops rest →
    read (gap ++ (text ++ rest)) = .ok (a, rest)

theorem Takes.reads_front {read : Reader α} {text rest : List Char} {a : α}
    (h : Takes read text a) (hrest : Stops rest) : read (text ++ rest) = .ok (a, rest) :=
  h.reads (List.all_nil) hrest

section values

theorem takes_stringAs (expected : String) {text : List Char} {s : String}
    (h : Literal text s) : Takes (readStringAs expected) text s := by
  obtain ⟨body, rfl, hbody⟩ := h.scanString
  refine ⟨⟨'"', body, rfl, rfl, by decide⟩, fun {gap rest} hgap _ => ?_⟩
  rw [readStringAs, List.cons_append, skipBlank_gap hgap rfl]
  change orMalformed (scanString (body ++ rest)) = _
  rw [hbody]
  rfl

theorem takes_string {text : List Char} {s : String} (h : Literal text s) :
    Takes readString text s :=
  takes_stringAs _ h

def SpellsBool (text : List Char) (b : Bool) : Prop :=
  text = (if b then "true" else "false").toList

theorem takes_bool {text : List Char} {b : Bool} (h : SpellsBool text b) :
    Takes readBool text b := by
  subst h
  cases b with
  | false =>
      refine ⟨⟨'f', _, rfl, rfl, by decide⟩, fun {gap rest} hgap _ => ?_⟩
      have hskip : skipBlank (gap ++ ("false".toList ++ rest)) = 'f' :: ("alse".toList ++ rest) :=
        skipBlank_gap hgap rfl _
      rw [readBool, if_neg Bool.false_ne_true, hskip]
      rfl
  | true =>
      refine ⟨⟨'t', _, rfl, rfl, by decide⟩, fun {gap rest} hgap _ => ?_⟩
      have hskip : skipBlank (gap ++ ("true".toList ++ rest)) = 't' :: ("rue".toList ++ rest) :=
        skipBlank_gap hgap rfl _
      rw [readBool, if_pos rfl, hskip]
      rfl

def SpellsUnsigned (bits : Nat) (text : List Char) (n : Nat) : Prop :=
  n < 2 ^ bits ∧ text = Nat.toDigits 10 n

theorem takes_unsigned {bits : Nat} (hbits : bits ≤ 64) {text : List Char} {n : Nat}
    (type : String) (h : SpellsUnsigned bits text n) :
    Takes (readUnsigned bits type) text n := by
  obtain ⟨hn, rfl⟩ := h
  have hword : n < 2 ^ 64 := Nat.lt_of_lt_of_le hn (Nat.pow_le_pow_right (by decide) hbits)
  obtain ⟨d, ds, hds⟩ := List.exists_cons_of_ne_nil (Nat.toDigits_ne_nil (b := 10) (n := n))
  have hdigit : d.isDigit :=
    Nat.isDigit_of_mem_toDigits (by decide) (by decide) (hds ▸ List.mem_cons_self)
  have hstart : startsNumber d := by simp [startsNumber, hdigit]
  have hscan : scanNumber (d :: ds) = some (.int n, []) := by
    have hint := scanNumber_intText (n := n) (by omega) (by omega)
    rwa [intText, if_neg (by omega), Int.natAbs_natCast, hds] at hint
  rw [hds]
  refine ⟨⟨d, ds, rfl, isBlank_of_startsNumber hstart, ne_of_startsNumber hstart rfl⟩,
    fun {gap rest} hgap hrest => ?_⟩
  have hnumber : readNumber (d :: (ds ++ rest)) = .ok (.int n, rest) := by
    rw [readNumber, ← List.cons_append, scanNumber_append hrest, hscan]
    rfl
  rw [readUnsigned, List.cons_append, skipBlank_gap hgap (isBlank_of_startsNumber hstart)]
  dsimp only
  rw [if_pos (.inr hdigit), hnumber]
  exact if_pos ⟨Int.natCast_nonneg n, hn⟩

def Nullable (spells : List Char → α → Prop) (text : List Char) : Option α → Prop
  | none => text = "null".toList
  | some a => spells text a

theorem takes_nullable {spells : List Char → α → Prop} {read : Reader α}
    (hread : ∀ text a, spells text a → Takes read text a)
    (hnull : ∀ text a, spells text a → text.head? ≠ some 'n') {text : List Char} {a : Option α}
    (h : Nullable spells text a) : Takes (readNullable read) text a := by
  cases a with
  | none =>
      obtain rfl : text = "null".toList := h
      refine ⟨⟨'n', _, rfl, rfl, by decide⟩, fun {gap rest} hgap _ => ?_⟩
      have hskip : skipBlank (gap ++ ("null".toList ++ rest)) = 'n' :: ("ull".toList ++ rest) :=
        skipBlank_gap hgap rfl _
      rw [readNullable, hskip]
      rfl
  | some a =>
      have htakes := hread text a h
      refine ⟨htakes.starts, fun {gap rest} hgap hrest => ?_⟩
      obtain ⟨c, cs, rfl, hblank, -⟩ := htakes.starts
      have hc : c ≠ 'n' := fun heq => hnull _ _ h (heq ▸ rfl)
      rw [readNullable, htakes.reads hgap hrest, List.cons_append, skipBlank_gap hgap hblank]
      split
      · next heq => exact absurd (List.cons.inj heq).1 hc
      · rfl

end values

section lists

variable {first : Bool}

theorem nextElement_close {gap : List Char} (hgap : gap.all isBlank) (first : Bool)
    (rest : List Char) : nextElement first (gap ++ ']' :: rest) = .ok none := by
  rw [nextElement, skipBlank_gap hgap rfl]
  rfl

theorem closeArray_gap {gap : List Char} (hgap : gap.all isBlank) (rest : List Char) :
    closeArray (gap ++ ']' :: rest) = .ok rest := by
  rw [closeArray, skipBlank_gap hgap rfl]
  rfl

theorem nextElement_element {separator : List Char} (h : Separator first separator) {c : Char}
    (hblank : isBlank c = false) (hclose : c ≠ ']') (rest : List Char) :
    nextElement first (separator ++ c :: rest) = .ok (some (c :: rest)) := by
  cases h with
  | first hgap =>
      rw [nextElement, skipBlank_gap hgap hblank]
      simp
  | more hgap hgap' =>
      rw [nextElement, List.append_assoc, List.cons_append, skipBlank_gap hgap rfl]
      split
      · next heq => cases heq
      · next heq => exact absurd (List.cons.inj heq).1 (by decide)
      · next heq =>
          obtain ⟨rfl, rfl⟩ := List.cons.inj heq
          rw [if_neg Bool.false_ne_true, if_pos rfl, skipBlank_gap hgap' hblank]
          split
          · next heq => cases heq
          · next heq => exact absurd (List.cons.inj heq).1 hclose
          · rfl

def Listed (spells : List Char → α → Prop) (text : List Char) (as : List α) : Prop :=
  ∃ body, text = '[' :: body ∧ Sequence ']' spells true body as

theorem readElements_sequence {spells : List Char → α → Prop} {read : Reader α}
    (hread : ∀ text a, spells text a → Takes read text a) {body : List Char} {as : List α}
    (h : Sequence ']' spells first body as) {n i : Nat} (hn : as.length < n)
    (hi : first = (i == 0)) (rest : List Char) :
    ∃ tail, readElements read n i (body ++ rest) = .ok (as, tail) ∧
      closeArray tail = .ok rest := by
  induction h generalizing n i with
  | @close first gap hgap =>
      obtain ⟨m, rfl⟩ : ∃ m, n = m + 1 := ⟨n - 1, by omega⟩
      refine ⟨_, ?_, closeArray_gap hgap rest⟩
      rw [readElements, List.append_assoc, List.singleton_append, nextElement_close hgap]
      rfl
  | @element first separator text tail a as hseparator htext htail ih =>
      obtain ⟨m, rfl⟩ : ∃ m, n = m + 1 := ⟨n - 1, by omega⟩
      have htakes := hread text a htext
      obtain ⟨last, hlast, hclosed⟩ := ih (n := m) (i := i + 1) (by simpa using hn) (by simp)
      have helement : read (text ++ (tail ++ rest)) = .ok (a, tail ++ rest) :=
        htakes.reads_front (htail.stops (.inl rfl) rest)
      obtain ⟨c, cs, rfl, hblank, hclose⟩ := htakes.starts
      refine ⟨last, ?_, hclosed⟩
      simp only [List.append_assoc, List.cons_append] at helement ⊢
      rw [readElements, ← hi, nextElement_element hseparator hblank hclose]
      change (underStep _ (read _) >>= _) = _
      rw [helement]
      change (readElements read m (i + 1) (tail ++ rest) >>= _) = _
      rw [hlast]
      rfl

theorem takes_list {spells : List Char → α → Prop} {read : Reader α}
    (hread : ∀ text a, spells text a → Takes read text a) {text : List Char} {as : List α}
    (h : Listed spells text as) : Takes (readList read) text as := by
  obtain ⟨body, rfl, hbody⟩ := h
  refine ⟨⟨'[', body, rfl, rfl, by decide⟩, fun {gap rest} hgap _ => ?_⟩
  have hlength := hbody.length_le
  obtain ⟨tail, htail, hclosed⟩ := readElements_sequence hread hbody
    (n := (body ++ rest).length + 1) (i := 0) (by simp at hlength ⊢; omega) rfl rest
  rw [readList, List.cons_append, skipBlank_gap hgap rfl]
  change (readElements read _ 0 (body ++ rest) >>= _) = _
  rw [htail]
  change (closeArray tail >>= _) = _
  rw [hclosed]
  rfl

end lists

section records

/-- A field of a record in a document: its name, whether an array has to hold it, how its value is
spelled, and when it may be left out. -/
structure Entry (α : Type) where
  name : String
  inArray : Bool
  spells : List Char → α → Prop
  omissible : α → Prop

/-- The members of an object that spells a record. Those that the record does not know hold any
value. -/
inductive Labelled (entries : List (Entry α)) (a : α) : List Char → Option String → Prop
  | known {e : Entry α} {key value text : List Char} : e ∈ entries → Literal key e.name →
      e.spells value a → Member key value text → Labelled entries a text (some e.name)
  | unknown {name : String} {depth : Nat} {key value text : List Char} :
      name ∉ entries.map Entry.name → Literal key name → Written depth value →
      Member key value text → Labelled entries a text none

/-- The texts of a record: an object with each of its fields at most once, in any order, or an array
of its fields in order. What is missing may be left out. -/
inductive Record (entries : List (Entry α)) : List Char → α → Prop
  | object {body : List Char} {labels : List (Option String)} {a : α} :
      Sequence '}' (Labelled entries a) true body labels → (labels.filterMap id).Nodup →
      (∀ e ∈ entries, some e.name ∉ labels → e.omissible a) → Record entries ('{' :: body) a
  | array {body : List Char} {given omitted : List (Entry α)} {a : α} :
      given ++ omitted = entries → Sequence ']' (fun text e => e.spells text a) true body given →
      (∀ e ∈ omitted, e.inArray = false ∧ e.omissible a) → Record entries ('[' :: body) a

/-- A field of a shape reads an entry: in a state that holds the given fields of a record, it adds
its own. -/
structure Follows (state : α → List String → σ) (f : FieldSpec σ) (e : Entry α) : Prop where
  name : f.name = e.name
  inArray : f.inArray = e.inArray
  filled : ∀ a given, f.filled (state a given) = decide (e.name ∈ given)
  takes : ∀ a given text, e.spells text a →
    Takes (f.read (state a given)) text (state a (e.name :: given))

/-- A shape reads the records with certain entries; `state a given` is what it has of the record
`a` when the given fields were read. -/
structure Shape.Reads (shape : Shape σ α) (entries : List (Entry α))
    (state : α → List String → σ) : Prop where
  fields : List.Forall₂ (Follows state) shape.fields entries
  distinct : (entries.map Entry.name).Nodup
  blank : ∀ a, state a [] = shape.blank
  build : ∀ a given, (∀ e ∈ entries, e.name ∉ given → e.omissible a) →
    shape.build (state a given) = .ok a

variable {state : α → List String → σ}

theorem find?_of_follows {fields : List (FieldSpec σ)} {entries : List (Entry α)}
    (h : List.Forall₂ (Follows state) fields entries) (hdistinct : (entries.map Entry.name).Nodup)
    {e : Entry α} (he : e ∈ entries) :
    ∃ f, fields.find? (·.name == e.name) = some f ∧ Follows state f e := by
  induction h with
  | nil => cases he
  | @cons f e' fields entries hf hfields ih =>
      rw [List.map_cons, List.nodup_cons] at hdistinct
      rcases List.mem_cons.mp he with rfl | he
      · exact ⟨f, by simp [hf.name], hf⟩
      · have hne : f.name ≠ e.name := fun heq =>
          hdistinct.1 (hf.name ▸ heq ▸ List.mem_map_of_mem he)
        rw [List.find?_cons_of_neg (by simpa using hne)]
        exact ih hdistinct.2 he

theorem find?_of_unknown {fields : List (FieldSpec σ)} {entries : List (Entry α)}
    (h : List.Forall₂ (Follows state) fields entries) {name : String}
    (hname : name ∉ entries.map Entry.name) : fields.find? (·.name == name) = none := by
  induction h with
  | nil => rfl
  | @cons f e fields entries hf hfields ih =>
      rw [List.map_cons, List.mem_cons, not_or] at hname
      rw [List.find?_cons_of_neg (by simpa [hf.name] using Ne.symm hname.1)]
      exact ih hname.2

theorem firstAbsent_eq_none {fields : List (FieldSpec σ)} {entries : List (Entry α)}
    (h : List.Forall₂ (Follows state) fields entries) {a : α} {given : List String}
    (hgiven : ∀ e ∈ entries, e.inArray → e.name ∈ given) (i : Nat) :
    Shape.firstAbsent (state a given) i fields = none := by
  induction h generalizing i with
  | nil => rfl
  | @cons f e fields entries hf hfields ih =>
      obtain ⟨he, hentries⟩ := List.forall_mem_cons.mp hgiven
      rw [Shape.firstAbsent, hf.inArray, hf.filled, if_neg]
      · exact ih hentries (i + 1)
      · simpa using he

namespace Shape

theorem readPositions_sequence {a : α} {first : Bool} {body : List Char}
    {present : List (Entry α)}
    (h : Sequence ']' (fun text (e : Entry α) => e.spells text a) first body present)
    {fields : List (FieldSpec σ)} {omitted : List (Entry α)}
    (hfields : List.Forall₂ (Follows state) fields (present ++ omitted)) {i : Nat}
    (hi : first = (i == 0)) (given : List String) (rest : List Char) :
    ∃ tail, readPositions (state a given) i fields (body ++ rest) =
        .ok (state a ((present.map Entry.name).reverse ++ given), tail) ∧
      closeArray tail = .ok rest := by
  induction h generalizing fields i given with
  | @close first gap hgap =>
      refine ⟨_, ?_, closeArray_gap hgap rest⟩
      rw [List.append_assoc, List.singleton_append]
      cases fields with
      | nil => rfl
      | cons f fields =>
          rw [readPositions, nextElement_close hgap]
          rfl
  | @element first separator text tail e present hseparator htext htail ih =>
      obtain ⟨f, fields', hf, hfields', rfl⟩ := List.forall₂_cons_right_iff.mp hfields
      have htakes := hf.takes a given text htext
      obtain ⟨last, hlast, hclosed⟩ :=
        ih hfields' (i := i + 1) (by simp) (e.name :: given)
      have helement := htakes.reads_front (htail.stops (.inl rfl) rest)
      obtain ⟨c, cs, rfl, hblank, hclose⟩ := htakes.starts
      refine ⟨last, ?_, hclosed⟩
      simp only [List.append_assoc, List.cons_append] at helement ⊢
      rw [readPositions, ← hi, nextElement_element hseparator hblank hclose]
      change (underStep _ (f.read _ _) >>= _) = _
      rw [helement]
      change readPositions _ (i + 1) fields' (tail ++ rest) = _
      rw [hlast, List.map_cons, List.reverse_cons, List.append_assoc]
      rfl

variable {shape : Shape σ α} {entries : List (Entry α)}

theorem Reads.readArray (h : shape.Reads entries state) {a : α} {body : List Char}
    {given omitted : List (Entry α)} (hentries : given ++ omitted = entries)
    (hbody : Sequence ']' (fun text e => e.spells text a) true body given)
    (homitted : ∀ e ∈ omitted, e.inArray = false ∧ e.omissible a) (rest : List Char) :
    shape.readArray (body ++ rest) = .ok (a, rest) := by
  subst hentries
  obtain ⟨tail, htail, hclosed⟩ := readPositions_sequence hbody h.fields (i := 0) rfl [] rest
  rw [List.append_nil] at htail
  have hgiven : ∀ e ∈ given ++ omitted, e ∈ omitted ∨ e.name ∈ (given.map Entry.name).reverse := by
    intro e he
    rcases List.mem_append.mp he with he | he
    · exact .inr (List.mem_reverse.mpr (List.mem_map_of_mem he))
    · exact .inl he
  have hpresent := firstAbsent_eq_none h.fields (a := a) (fun e he harray =>
    (hgiven e he).resolve_left fun hmem => by simp [(homitted e hmem).1] at harray) 0
  have hbuild := h.build a (given.map Entry.name).reverse fun e he hne =>
    (homitted e ((hgiven e he).resolve_right hne)).2
  rw [Shape.readArray, ← h.blank a, htail]
  simp only [bind, Except.bind, hpresent]
  change (shape.finish _ >>= _) = _
  rw [finish, hbuild]
  change (closeArray tail >>= _) = _
  rw [hclosed]
  rfl

theorem nextKey_close {gap : List Char} (hgap : gap.all isBlank) (first : Bool)
    (rest : List Char) : nextKey first (gap ++ '}' :: rest) = .ok none := by
  rw [nextKey, skipBlank_gap hgap rfl]
  rfl

theorem closeObject_gap {gap : List Char} (hgap : gap.all isBlank) (rest : List Char) :
    closeObject (gap ++ '}' :: rest) = .ok rest := by
  rw [closeObject, skipBlank_gap hgap rfl]
  rfl

theorem nextKey_element {first : Bool} {separator : List Char} (h : Separator first separator)
    (rest : List Char) : nextKey first (separator ++ '"' :: rest) = .ok (some rest) := by
  cases h with
  | first hgap =>
      rw [nextKey, skipBlank_gap hgap rfl]
      rfl
  | more hgap hgap' =>
      have hskip := skipBlank_gap hgap' (c := '"') rfl rest
      rw [nextKey, List.append_assoc, List.cons_append, skipBlank_gap hgap rfl]
      simp [hskip]

theorem Reads.readFields_known (h : shape.Reads entries state) {a : α} {e : Entry α}
    (he : e ∈ entries) {key value text : List Char} (hkey : Literal key e.name)
    (hvalue : e.spells value a) (hmember : Member key value text) {first : Bool}
    {separator : List Char} (hseparator : Separator first separator) {given : List String}
    (hfresh : e.name ∉ given) {rest : List Char} (hrest : Stops rest) (n : Nat) :
    shape.readFields (n + 1) first (state a given) (separator ++ (text ++ rest)) =
      shape.readFields n false (state a (e.name :: given)) rest := by
  obtain ⟨hgap, hgap'⟩ := hmember
  obtain ⟨name, rfl, hname⟩ := hkey.scanString
  obtain ⟨f, hfind, hf⟩ := find?_of_follows h.fields h.distinct he
  have hread := (hf.takes a given value hvalue).reads hgap' hrest
  simp only [List.cons_append, List.append_assoc]
  rw [readFields, nextKey_element hseparator]
  change (orMalformed (scanString _) >>= _) = _
  rw [hname]
  simp only [orMalformed, bind, Except.bind, hfind]
  rw [hf.filled, if_neg (by simpa using hfresh), afterColon_gap hgap]
  change (underStep _ (f.read _ _) >>= _) = _
  rw [hread]
  rfl

theorem Reads.readFields_unknown (h : shape.Reads entries state) (s : σ) {name : String}
    (hunknown : name ∉ entries.map Entry.name) {depth : Nat} {key value text : List Char}
    (hkey : Literal key name) (hvalue : Written depth value) (hmember : Member key value text)
    {first : Bool} {separator : List Char} (hseparator : Separator first separator)
    {rest : List Char} (hrest : Stops rest) (n : Nat) :
    shape.readFields (n + 1) first s (separator ++ (text ++ rest)) =
      shape.readFields n false s rest := by
  obtain ⟨hgap, hgap'⟩ := hmember
  obtain ⟨body, rfl, hname⟩ := hkey.scanString
  simp only [List.cons_append, List.append_assoc]
  rw [readFields, nextKey_element hseparator]
  change (orMalformed (scanString _) >>= _) = _
  rw [hname]
  simp only [orMalformed, bind, Except.bind, find?_of_unknown h.fields hunknown]
  rw [afterColon_gap hgap]
  change (orMalformed (skipValue _ _) >>= _) = _
  rw [skipValue_append hgap', (skips_written hvalue).skips _ hrest]
  · rfl
  · simp only [List.length_append]
    omega

theorem Reads.readFields_sequence (h : shape.Reads entries state) {a : α} {first : Bool}
    {body : List Char} {labels : List (Option String)}
    (hbody : Sequence '}' (Labelled entries a) first body labels)
    (hnodup : (labels.filterMap id).Nodup) {given : List String}
    (hfresh : ∀ name ∈ given, some name ∉ labels) {n : Nat} (hn : labels.length < n)
    (rest : List Char) :
    ∃ tail, shape.readFields n first (state a given) (body ++ rest) =
        .ok (state a ((labels.filterMap id).reverse ++ given), tail) ∧
      closeObject tail = .ok rest := by
  -- Along the members, `given` collects the fields read so far and stays apart from those to come.
  induction hbody generalizing given n with
  | @close first gap hgap =>
      obtain ⟨m, rfl⟩ : ∃ m, n = m + 1 := ⟨n - 1, by omega⟩
      refine ⟨_, ?_, closeObject_gap hgap rest⟩
      rw [readFields, List.append_assoc, List.singleton_append, nextKey_close hgap]
      rfl
  | @element first separator text tail label labels hseparator htext htail ih =>
      obtain ⟨m, rfl⟩ : ∃ m, n = m + 1 := ⟨n - 1, by omega⟩
      have hm : labels.length < m := Nat.lt_of_succ_lt_succ hn
      have hstops := htail.stops (.inr rfl) rest
      rw [List.append_assoc, List.append_assoc]
      cases htext with
      | @known e key value text he hkey hvalue hmember =>
          have hknown : (some e.name :: labels).filterMap id = e.name :: labels.filterMap id := rfl
          rw [hknown, List.nodup_cons] at hnodup
          have hgiven : e.name ∉ given := fun hmem => hfresh _ hmem List.mem_cons_self
          have hlater : ∀ name ∈ e.name :: given, some name ∉ labels := by
            intro name hmem hlabel
            rcases List.mem_cons.mp hmem with rfl | hmem
            · exact hnodup.1 (List.mem_filterMap.mpr ⟨_, hlabel, rfl⟩)
            · exact hfresh name hmem (List.mem_cons_of_mem _ hlabel)
          rw [h.readFields_known he hkey hvalue hmember hseparator hgiven hstops m, hknown,
            List.reverse_cons, List.append_assoc]
          exact ih hnodup.2 hlater hm
      | @unknown name depth key value text hname hkey hvalue hmember =>
          rw [h.readFields_unknown _ hname hkey hvalue hmember hseparator hstops m]
          exact ih hnodup (fun name hmem hlabel => hfresh name hmem (.tail _ hlabel)) hm

theorem Reads.readObject (h : shape.Reads entries state) {a : α} {body : List Char}
    {labels : List (Option String)} (hbody : Sequence '}' (Labelled entries a) true body labels)
    (hnodup : (labels.filterMap id).Nodup)
    (homitted : ∀ e ∈ entries, some e.name ∉ labels → e.omissible a) (rest : List Char) :
    shape.readObject (body ++ rest) = .ok (a, rest) := by
  have hn : labels.length < (body ++ rest).length + 1 := by
    have hlength := hbody.length_le
    rw [Bool.toNat_true] at hlength
    rw [List.length_append]
    omega
  obtain ⟨tail, htail, hclosed⟩ :=
    h.readFields_sequence hbody hnodup (List.forall_mem_nil _) hn rest
  have hbuild := h.build a ((labels.filterMap id).reverse ++ []) fun e he hne =>
    homitted e he fun hlabel => hne (by simpa using hlabel)
  rw [Shape.readObject, ← h.blank a, htail]
  change (shape.finish _ >>= _) = _
  rw [finish, hbuild]
  change (closeObject tail >>= _) = _
  rw [hclosed]
  rfl

theorem Reads.read (h : shape.Reads entries state) {a : α} {text : List Char}
    (htext : Record entries text a) {gap : List Char} (hgap : gap.all isBlank)
    (rest : List Char) : shape.read (gap ++ (text ++ rest)) = .ok (a, rest) := by
  cases htext with
  | object hbody hnodup homitted =>
      rw [Shape.read, List.cons_append, skipBlank_gap hgap rfl]
      exact h.readObject hbody hnodup homitted rest
  | array hentries hbody homitted =>
      rw [Shape.read, List.cons_append, skipBlank_gap hgap rfl]
      exact h.readArray hentries hbody homitted rest

theorem Reads.takes (h : shape.Reads entries state) (text : List Char) (a : α)
    (htext : Record entries text a) : Takes shape.read text a := by
  refine ⟨?_, fun hgap _ => h.read htext hgap _⟩
  cases htext with
  | object => exact ⟨'{', _, rfl, rfl, by decide⟩
  | array => exact ⟨'[', _, rfl, rfl, by decide⟩

end Shape

end records

end DiamondScript.Json
