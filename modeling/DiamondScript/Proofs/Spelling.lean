import DiamondScript.Json.Typed
import DiamondScript.Proofs.JsonText

namespace DiamondScript.Json

section gaps

variable {gap : List Char} (hgap : gap.all isBlank)

include hgap

theorem skipBlank_append (cs : List Char) : skipBlank (gap ++ cs) = skipBlank cs :=
  List.dropWhile_append_of_pos (List.all_eq_true.mp hgap)

theorem skipBlank_gap {c : Char} (hc : isBlank c = false) (cs : List Char) :
    skipBlank (gap ++ c :: cs) = c :: cs := by
  rw [skipBlank_append hgap, skipBlank_cons hc]

theorem stops_gap {rest : List Char} (hrest : Stops rest) : Stops (gap ++ rest) := by
  cases gap with
  | nil => exact hrest
  | cons c cs =>
      rintro _ ⟨⟩
      have hc : isBlank c := List.all_eq_true.mp hgap c List.mem_cons_self
      simp only [isBlank, Bool.or_eq_true, decide_eq_true_eq] at hc
      rcases hc with ((rfl | rfl) | rfl) | rfl <;> decide

end gaps

section literals

def HexDigit (d : Char) (n : Nat) : Prop :=
  "0123456789abcdef".toList[n]? = some d ∨ "0123456789ABCDEF".toList[n]? = some d

theorem hexValue_of_hexDigit {d : Char} {n : Nat} (h : HexDigit d n) : hexValue d = some n := by
  have hall : ∀ n < 16, ∀ digits ∈ ["0123456789abcdef".toList, "0123456789ABCDEF".toList],
      (digits[n]?).bind hexValue = some n := by decide
  rcases h with h | h
  · have hvalue := hall n (List.getElem?_eq_some_iff.mp h).1 _ List.mem_cons_self
    rwa [h] at hvalue
  · have hvalue := hall n (List.getElem?_eq_some_iff.mp h).1 _ (.tail _ List.mem_cons_self)
    rwa [h] at hvalue

inductive Quad : List Char → Nat → Prop
  | mk {a b c d : Char} {w x y z : Nat} : HexDigit a w → HexDigit b x → HexDigit c y →
      HexDigit d z → Quad [a, b, c, d] (((w * 16 + x) * 16 + y) * 16 + z)

theorem hexQuad_of_quad {ds : List Char} {n : Nat} (h : Quad ds n) (rest : List Char) :
    hexQuad (ds ++ rest) = some (n, rest) := by
  obtain ⟨ha, hb, hc, hd⟩ := h
  simp [hexQuad, hexValue_of_hexDigit ha, hexValue_of_hexDigit hb, hexValue_of_hexDigit hc,
    hexValue_of_hexDigit hd]

def escapes : List (Char × Char) :=
  [('"', '"'), ('\\', '\\'), ('/', '/'), ('b', '\x08'), ('f', '\x0c'), ('n', '\n'), ('r', '\r'),
    ('t', '\t')]

theorem simpleEscape_of_mem {e c : Char} (h : (e, c) ∈ escapes) :
    e ≠ 'u' ∧ simpleEscape e = some c := by
  have hall : escapes.all fun p => p.1 ≠ 'u' && simpleEscape p.1 = some p.2 := by decide
  simpa using List.all_eq_true.mp hall _ h

/-- A part of a literal and the code it stands for: a character as it is, its own escape, or the
code in digits. -/
inductive Part : List Char → Nat → Prop
  | plain {c : Char} : 32 ≤ c.toNat → c ≠ '"' → c ≠ '\\' → Part [c] c.toNat
  | escape {e c : Char} : (e, c) ∈ escapes → Part ['\\', e] c.toNat
  | code {ds : List Char} {n : Nat} : Quad ds n → Part ('\\' :: 'u' :: ds) n

/-- How a character is spelled: in one part, or by the two codes of a surrogate pair. -/
inductive SpellsChar : List Char → Char → Prop
  | one {text : List Char} {c : Char} : Part text c.toNat → SpellsChar text c
  | pair {high low : List Char} {c : Char} : 0x10000 ≤ c.toNat →
      Quad high (0xD800 + (c.toNat - 0x10000) / 0x400) →
      Quad low (0xDC00 + (c.toNat - 0x10000) % 0x400) →
      SpellsChar ('\\' :: 'u' :: (high ++ '\\' :: 'u' :: low)) c

def Literal (text : List Char) (s : String) : Prop :=
  ∃ parts, List.Forall₂ SpellsChar parts s.toList ∧ text = '"' :: (parts.flatten ++ ['"'])

theorem unicodeEscape_one {ds : List Char} {c : Char} (h : Quad ds c.toNat) (rest : List Char) :
    unicodeEscape (ds ++ rest) = some (c, rest) := by
  have hvalid : c.toNat < 0xD800 ∨ 0xDFFF < c.toNat := c.valid.imp id And.left
  rw [unicodeEscape, hexQuad_of_quad h]
  simp only [Option.bind_eq_bind, Option.bind_some]
  rw [if_neg (by omega), if_neg (by omega), Char.ofNat_toNat]

theorem unicodeEscape_surrogates {high low : List Char} {n m : Nat} (hhigh : Quad high n)
    (hlow : Quad low m) (hn : 0xD800 ≤ n ∧ n ≤ 0xDBFF) (hm : 0xDC00 ≤ m ∧ m ≤ 0xDFFF)
    (rest : List Char) :
    unicodeEscape (high ++ '\\' :: 'u' :: (low ++ rest)) =
      some (Char.ofNat ((n - 0xD800) * 0x400 + (m - 0xDC00) + 0x10000), rest) := by
  rw [unicodeEscape, hexQuad_of_quad hhigh]
  simp only [Option.bind_eq_bind, Option.bind_some, hexQuad_of_quad hlow]
  rw [if_neg (by omega), if_pos hn, if_pos hm]

theorem unicodeEscape_pair {high low : List Char} {c : Char} (hc : 0x10000 ≤ c.toNat)
    (hhigh : Quad high (0xD800 + (c.toNat - 0x10000) / 0x400))
    (hlow : Quad low (0xDC00 + (c.toNat - 0x10000) % 0x400)) (rest : List Char) :
    unicodeEscape (high ++ '\\' :: 'u' :: (low ++ rest)) = some (c, rest) := by
  have hmax : c.toNat < 0xD800 ∨ 0xDFFF < c.toNat ∧ c.toNat < 0x110000 := c.valid
  have hcode : (0xD800 + (c.toNat - 0x10000) / 0x400 - 0xD800) * 0x400 +
      (0xDC00 + (c.toNat - 0x10000) % 0x400 - 0xDC00) + 0x10000 = c.toNat := by omega
  rw [unicodeEscape_surrogates hhigh hlow (by omega) (by omega), hcode, Char.ofNat_toNat]

theorem stringBody_unicode {cs rest : List Char} {c : Char}
    (h : unicodeEscape cs = some (c, rest)) (n : Nat) :
    stringBody (n + 1) ('\\' :: 'u' :: cs) = (stringBody n rest).map fun r => (c :: r.1, r.2) := by
  rw [stringBody, h]
  change (stringBody n rest >>= _) = _
  cases stringBody n rest <;> rfl

theorem stringBody_spellsChar {text : List Char} {c : Char} (h : SpellsChar text c) (n : Nat)
    (rest : List Char) :
    stringBody (n + 1) (text ++ rest) = (stringBody n rest).map fun r => (c :: r.1, r.2) := by
  cases h with
  | one h =>
      generalize hcode : c.toNat = code at h
      cases h with
      | plain hlow hquote hslash =>
          obtain rfl := Char.toNat_inj.mp hcode
          exact stringBody_plain hquote hslash (Nat.not_lt.mpr hlow) n rest
      | escape he =>
          obtain rfl := Char.toNat_inj.mp hcode
          exact stringBody_simple (simpleEscape_of_mem he).1 (simpleEscape_of_mem he).2 n rest
      | code hquad =>
          subst hcode
          exact stringBody_unicode (unicodeEscape_one hquad rest) n
  | pair hc hhigh hlow =>
      have hescape := unicodeEscape_pair hc hhigh hlow rest
      simpa using stringBody_unicode hescape n

theorem Part.ne_nil {text : List Char} {n : Nat} (h : Part text n) : text ≠ [] := by
  cases h <;> exact List.cons_ne_nil _ _

theorem SpellsChar.ne_nil {text : List Char} {c : Char} (h : SpellsChar text c) : text ≠ [] := by
  cases h with
  | one h => exact h.ne_nil
  | pair => exact List.cons_ne_nil _ _

theorem stringBody_parts {parts : List (List Char)} {cs : List Char}
    (h : List.Forall₂ SpellsChar parts cs) (rest : List Char) {n : Nat} (hn : cs.length < n) :
    stringBody n (parts.flatten ++ '"' :: rest) = some (cs, rest) := by
  induction h generalizing n with
  | nil =>
      obtain ⟨m, rfl⟩ := Nat.exists_eq_add_of_lt hn
      simp [stringBody]
  | @cons part c parts cs hpart hparts ih =>
      obtain ⟨m, rfl⟩ : ∃ m, n = m + 1 := ⟨n - 1, by omega⟩
      rw [List.flatten_cons, List.append_assoc, stringBody_spellsChar hpart,
        ih (by simpa using hn)]
      rfl

theorem length_le_flatten {parts : List (List Char)} {cs : List Char}
    (h : List.Forall₂ SpellsChar parts cs) : cs.length ≤ parts.flatten.length := by
  induction h with
  | nil => exact Nat.le_refl 0
  | cons hpart hparts ih =>
      have := List.length_pos_of_ne_nil hpart.ne_nil
      rw [List.flatten_cons, List.length_append, List.length_cons]
      omega

theorem Literal.scanString {text : List Char} {s : String} (h : Literal text s) :
    ∃ body, text = '"' :: body ∧ ∀ rest, scanString (body ++ rest) = some (s, rest) := by
  obtain ⟨parts, hparts, rfl⟩ := h
  refine ⟨_, rfl, fun rest => ?_⟩
  have hlength := length_le_flatten hparts
  have hfuel : s.toList.length < (parts.flatten ++ '"' :: rest).length + 1 := by
    rw [List.length_append]
    omega
  rw [List.append_assoc, List.singleton_append, Json.scanString, stringBody_parts hparts rest hfuel]
  simp

/-- A literal in which codes need not make up characters. -/
def IsLiteral (text : List Char) : Prop :=
  ∃ parts : List (List Char), (∀ part ∈ parts, ∃ n, Part part n) ∧
    text = '"' :: (parts.flatten ++ ['"'])

theorem skipString_part {part : List Char} {n : Nat} (h : Part part n) (rest : List Char) :
    skipString (part ++ rest) = skipString rest := by
  cases h with
  | plain hlow hquote hslash =>
      rw [List.singleton_append, skipString]
      · exact if_neg (by simp [hslash, hlow])
      · exact hquote
      all_goals
        intros
        exact hslash ‹_›
  | escape he =>
      obtain ⟨hu, hc⟩ := simpleEscape_of_mem he
      rw [List.cons_append, List.singleton_append, skipString]
      · rw [hc, Option.isSome_some, if_pos rfl]
      · intros
        exact hu ‹_›
  | code hquad =>
      obtain ⟨ha, hb, hc, hd⟩ := hquad
      simp [skipString, hexValue_of_hexDigit ha, hexValue_of_hexDigit hb,
        hexValue_of_hexDigit hc, hexValue_of_hexDigit hd]

theorem skipString_parts {parts : List (List Char)} (h : ∀ part ∈ parts, ∃ n, Part part n)
    (rest : List Char) : skipString (parts.flatten ++ '"' :: rest) = some rest := by
  induction parts with
  | nil => rfl
  | cons part parts ih =>
      obtain ⟨⟨n, hpart⟩, hparts⟩ := List.forall_mem_cons.mp h
      rw [List.flatten_cons, List.append_assoc, skipString_part hpart, ih hparts]

theorem IsLiteral.skipString {text : List Char} (h : IsLiteral text) :
    ∃ body, text = '"' :: body ∧ ∀ rest, skipString (body ++ rest) = some rest := by
  obtain ⟨parts, hparts, rfl⟩ := h
  refine ⟨_, rfl, fun rest => ?_⟩
  rw [List.append_assoc]
  exact skipString_parts hparts rest

end literals

section numerals

def Digits (ds : List Char) : Prop := ds ≠ [] ∧ ds.all Char.isDigit

inductive Fraction : List Char → Prop
  | none : Fraction []
  | some {ds : List Char} : Digits ds → Fraction ('.' :: ds)

inductive Exponent : List Char → Prop
  | none : Exponent []
  | some {e : Char} {sign ds : List Char} : e = 'e' ∨ e = 'E' → sign ∈ [[], ['+'], ['-']] →
      Digits ds → Exponent (e :: (sign ++ ds))

/-- A number of any size. A zero in front stands alone. -/
inductive IsNumeral : List Char → Prop
  | mk {sign whole fraction exponent : List Char} : sign ∈ [[], ['-']] → Digits whole →
      (whole.head? = some '0' → whole = ['0']) → Fraction fraction → Exponent exponent →
      IsNumeral (sign ++ (whole ++ (fraction ++ exponent)))

theorem digitRun_digits {ds rest : List Char} (h : Digits ds)
    (hrest : ∀ c ∈ rest.head?, c.isDigit = false) : digitRun (ds ++ rest) = (ds, rest) := by
  have hall := List.all_eq_true.mp h.2
  have hempty : rest.takeWhile Char.isDigit = [] ∧ rest.dropWhile Char.isDigit = rest := by
    cases rest with
    | nil => exact ⟨rfl, rfl⟩
    | cons c cs => simp [hrest c rfl]
  rw [digitRun, List.takeWhile_append_of_pos hall, List.dropWhile_append_of_pos hall, hempty.1,
    hempty.2, List.append_nil]

theorem scanExponent_exponent {exponent : List Char} (h : Exponent exponent) :
    ∃ e, scanExponent exponent = some (e, []) := by
  cases h with
  | none => exact ⟨_, rfl⟩
  | @some e sign ds he hsign hds =>
      obtain ⟨d, ds', rfl⟩ := List.exists_cons_of_ne_nil hds.1
      have hd : d.isDigit := List.all_eq_true.mp hds.2 d List.mem_cons_self
      have hrun : digitRun (d :: ds' ++ []) = (d :: ds', []) := digitRun_digits hds nofun
      rw [List.append_nil] at hrun
      have hexp : (exponentSign (sign ++ d :: ds')).2 = d :: ds' := by
        simp only [List.mem_cons, List.not_mem_nil, or_false] at hsign
        rcases hsign with rfl | rfl | rfl
        · rw [List.nil_append, exponentSign]
          all_goals
            rintro _ ⟨⟩
            exact absurd hd (by decide)
        · rfl
        · rfl
      rw [scanExponent_cons, if_pos he, hexp, hrun]
      exact ⟨_, rfl⟩

theorem head_exponent {exponent : List Char} (h : Exponent exponent) :
    ∀ c ∈ exponent.head?, c.isDigit = false ∧ c ≠ '.' := by
  cases h with
  | none => nofun
  | some he =>
      rintro _ ⟨⟩
      rcases he with rfl | rfl <;> decide

theorem scanFraction_fraction {fraction exponent : List Char} (h : Fraction fraction)
    (hexponent : Exponent exponent) :
    ∃ f, scanFraction (fraction ++ exponent) = some (f, exponent) := by
  have hhead := head_exponent hexponent
  cases h with
  | none =>
      refine ⟨.none, ?_⟩
      rw [List.nil_append, scanFraction]
      rintro rest rfl
      exact (hhead _ rfl).2 rfl
  | some hds =>
      rw [List.cons_append, scanFraction, digitRun_digits hds fun c hc => (hhead c hc).1]
      exact ⟨_, if_neg (by simpa using hds.1)⟩

theorem scanUnsigned_numeral {whole fraction exponent : List Char} (hwhole : Digits whole)
    (hzero : whole.head? = some '0' → whole = ['0']) (hfraction : Fraction fraction)
    (hexponent : Exponent exponent) (negative : Bool) :
    ∃ n, scanUnsigned negative (whole ++ (fraction ++ exponent)) = some (n, []) := by
  have hhead : ∀ c ∈ (fraction ++ exponent).head?, c.isDigit = false := by
    cases hfraction with
    | none => exact fun c hc => (head_exponent hexponent c hc).1
    | some hds =>
        rintro _ ⟨⟩
        rfl
  obtain ⟨f, hf⟩ := scanFraction_fraction hfraction hexponent
  obtain ⟨e, he⟩ := scanExponent_exponent hexponent
  rw [scanUnsigned, digitRun_digits hwhole hhead]
  dsimp only
  split
  · exact absurd rfl hwhole.1
  · exact absurd (hzero rfl) (by simp)
  · rw [hf]
    change ∃ n, (scanExponent exponent >>= _) = some (n, [])
    rw [he]
    exact ⟨_, rfl⟩

theorem IsNumeral.scanNumeral {text : List Char} (h : IsNumeral text) {rest : List Char}
    (hrest : Stops rest) : ∃ n, scanNumeral (text ++ rest) = some (n, rest) := by
  obtain ⟨hsign, hwhole, hzero, hfraction, hexponent⟩ := h
  rename_i sign whole fraction exponent
  obtain ⟨n, hn⟩ := scanUnsigned_numeral hwhole hzero hfraction hexponent
    (numeralSign (sign ++ (whole ++ (fraction ++ exponent)))).1
  have hunsigned : (numeralSign (sign ++ (whole ++ (fraction ++ exponent)))).2 =
      whole ++ (fraction ++ exponent) := by
    obtain ⟨d, ds, rfl⟩ := List.exists_cons_of_ne_nil hwhole.1
    have hd : d.isDigit := List.all_eq_true.mp hwhole.2 d List.mem_cons_self
    simp only [List.mem_cons, List.not_mem_nil, or_false] at hsign
    rcases hsign with rfl | rfl
    · rw [List.nil_append, List.cons_append, numeralSign]
      rintro _ ⟨⟩
      exact absurd hd (by decide)
    · rfl
  rw [scanNumeral_eq, numeralSign_append hrest, scanUnsigned_append hrest, hunsigned, hn]
  exact ⟨n, rfl⟩

theorem IsNumeral.starts {text : List Char} (h : IsNumeral text) :
    ∃ c cs, text = c :: cs ∧ startsNumber c := by
  obtain ⟨hsign, hwhole, -, -, -⟩ := h
  obtain ⟨d, ds, rfl⟩ := List.exists_cons_of_ne_nil hwhole.1
  have hd : d.isDigit := List.all_eq_true.mp hwhole.2 d List.mem_cons_self
  simp only [List.mem_cons, List.not_mem_nil, or_false] at hsign
  rcases hsign with rfl | rfl
  · exact ⟨d, _, rfl, by simp [startsNumber, hd]⟩
  · exact ⟨'-', _, rfl, rfl⟩

end numerals

section sequences

variable {α : Type} {close : Char} {element : List Char → α → Prop} {first : Bool}

/-- What stands before an element: blanks, with a comma among them unless it is the first. -/
inductive Separator : Bool → List Char → Prop
  | first {gap : List Char} : gap.all isBlank → Separator true gap
  | more {gap gap' : List Char} : gap.all isBlank → gap'.all isBlank →
      Separator false (gap ++ ',' :: gap')

inductive Sequence (close : Char) (element : List Char → α → Prop) :
    Bool → List Char → List α → Prop
  | close {first : Bool} {gap : List Char} : gap.all isBlank →
      Sequence close element first (gap ++ [close]) []
  | element {first : Bool} {separator text rest : List Char} {a : α} {as : List α} :
      Separator first separator → element text a → Sequence close element false rest as →
      Sequence close element first (separator ++ (text ++ rest)) (a :: as)

theorem Sequence.length_le {body : List Char} {as : List α}
    (h : Sequence close element first body as) : as.length + 1 ≤ body.length + first.toNat := by
  induction h with
  | close hgap => simp; omega
  | element hseparator helement hrest ih =>
      simp only [List.length_append, List.length_cons, Bool.toNat_false] at ih ⊢
      cases hseparator <;> simp <;> omega

theorem Sequence.stops (hclose : close = ']' ∨ close = '}') {body : List Char} {as : List α}
    (h : Sequence close element false body as) (rest : List Char) : Stops (body ++ rest) := by
  cases h with
  | close hgap =>
      rw [List.append_assoc]
      refine stops_gap hgap ?_
      rintro _ ⟨⟩
      rcases hclose with rfl | rfl <;> decide
  | element hseparator =>
      cases hseparator with
      | more hgap =>
          rw [List.append_assoc, List.append_assoc]
          refine stops_gap hgap ?_
          rintro _ ⟨⟩
          decide

theorem Separator.elementStart {separator : List Char} (h : Separator first separator) {c : Char}
    (hc : isBlank c = false) (rest : List Char) :
    ∃ d ds, skipBlank (separator ++ c :: rest) = d :: ds ∧ (d = c ∨ d = ',') ∧
      elementStart first d ds = some (c :: rest) := by
  cases h with
  | first hgap => exact ⟨c, rest, skipBlank_gap hgap hc rest, .inl rfl, rfl⟩
  | @more gap gap' hgap hgap' =>
      refine ⟨',', gap' ++ c :: rest, ?_, .inr rfl, ?_⟩
      · rw [List.append_assoc]
        exact skipBlank_gap hgap rfl _
      · rw [Json.elementStart, skipBlank_gap hgap' hc]
        rfl

end sequences

section ignored

inductive Scalar : List Char → Prop
  | word {word : String} : word ∈ ["null", "true", "false"] → Scalar word.toList
  | number {text : List Char} : IsNumeral text → Scalar text
  | string {text : List Char} : IsLiteral text → Scalar text

inductive Member (key value : List Char) : List Char → Prop
  | mk {gap gap' : List Char} : gap.all isBlank → gap'.all isBlank →
      Member key value (key ++ (gap ++ ':' :: (gap' ++ value)))

inductive Compound (inner : List Char → Prop) : List Char → Prop
  | array {body : List Char} {units : List Unit} :
      Sequence ']' (fun text _ => inner text) true body units → Compound inner ('[' :: body)
  | object {body : List Char} {units : List Unit} :
      Sequence '}' (fun text _ => ∃ key value, IsLiteral key ∧ inner value ∧ Member key value text)
        true body units → Compound inner ('{' :: body)

/-- Well-formed values whose arrays and objects are nested at most `depth` deep. -/
def Written : Nat → List Char → Prop
  | 0, text => Scalar text
  | depth + 1, text => Scalar text ∨ Compound (Written depth) text

/-- A value that is stepped over, given a count of at least its length. -/
structure Skips (text : List Char) : Prop where
  starts : ∃ c rest, text = c :: rest ∧ isBlank c = false ∧ c ≠ ']'
  skips : ∀ {n : Nat} {rest : List Char}, text.length ≤ n → Stops rest →
    skipValue n (text ++ rest) = some rest

theorem skipValue_append {gap : List Char} (hgap : gap.all isBlank) (n : Nat) (cs : List Char) :
    skipValue n (gap ++ cs) = skipValue n cs := by
  cases n with
  | zero => rfl
  | succ n => rw [skipValue, skipValue, skipBlank_append hgap]

theorem skips_literal {text : List Char} (h : IsLiteral text) : Skips text := by
  obtain ⟨body, rfl, hbody⟩ := h.skipString
  refine ⟨⟨'"', body, rfl, rfl, by decide⟩, fun {n rest} hn _ => ?_⟩
  obtain ⟨m, rfl⟩ := Nat.exists_eq_add_of_lt (Nat.lt_of_lt_of_le (Nat.succ_pos _) hn)
  rw [skipValue, List.cons_append, skipBlank_cons rfl]
  exact hbody rest

theorem skips_word {word : String} (h : word ∈ ["null", "true", "false"]) :
    Skips word.toList := by
  have hcases : word = "null" ∨ word = "true" ∨ word = "false" := by simpa using h
  constructor
  · rcases hcases with rfl | rfl | rfl
    all_goals exact ⟨_, _, rfl, rfl, by decide⟩
  · intro n rest hn _
    have hpos : 0 < word.toList.length := by rcases hcases with rfl | rfl | rfl <;> decide
    obtain ⟨m, rfl⟩ := Nat.exists_eq_add_of_lt (Nat.lt_of_lt_of_le hpos hn)
    rcases hcases with rfl | rfl | rfl <;> rfl

theorem skipValue_number {c : Char} (h : startsNumber c) (n : Nat) (cs : List Char) :
    skipValue (n + 1) (c :: cs) = (scanNumeral (c :: cs)).map (·.2) := by
  rw [skipValue, skipBlank_cons (isBlank_of_startsNumber h)]
  split
  case h_7 => rfl
  all_goals
    next heq => exact absurd (List.cons.inj heq).1 (ne_of_startsNumber h rfl)

theorem skips_number {text : List Char} (h : IsNumeral text) : Skips text := by
  obtain ⟨c, cs, rfl, hc⟩ := h.starts
  refine ⟨⟨c, cs, rfl, isBlank_of_startsNumber hc, ne_of_startsNumber hc rfl⟩,
    fun {n rest} hn hrest => ?_⟩
  obtain ⟨m, rfl⟩ := Nat.exists_eq_add_of_lt (Nat.lt_of_lt_of_le (Nat.succ_pos _) hn)
  obtain ⟨numeral, hnumeral⟩ := h.scanNumeral hrest
  rw [List.cons_append] at hnumeral ⊢
  rw [skipValue_number hc, hnumeral]
  rfl

theorem skips_scalar {text : List Char} (h : Scalar text) : Skips text := by
  cases h with
  | word h => exact skips_word h
  | number h => exact skips_number h
  | string h => exact skips_literal h

theorem skipItems_element {first : Bool} {separator : List Char}
    (h : Separator first separator) {c : Char} (hblank : isBlank c = false) (hclose : c ≠ ']')
    (n : Nat) (rest : List Char) :
    skipItems (n + 1) first (separator ++ c :: rest) =
      (skipValue n (c :: rest)).bind (skipItems n false) := by
  obtain ⟨d, ds, hskip, hd, hstart⟩ := h.elementStart hblank rest
  have hdclose : d ≠ ']' := by
    rcases hd with rfl | rfl
    · exact hclose
    · decide
  rw [skipItems, hskip]
  simp [hstart, hclose]

theorem skipFields_element {first : Bool} {separator : List Char}
    (h : Separator first separator) (n : Nat) (rest : List Char) :
    skipFields (n + 1) first (separator ++ '"' :: rest) =
      (skipString rest).bind fun rest => (afterColon rest).bind fun rest =>
        (skipValue n rest).bind (skipFields n false) := by
  obtain ⟨d, ds, hskip, hd, hstart⟩ := h.elementStart (c := '"') rfl rest
  have hdclose : d ≠ '}' := by rcases hd with rfl | rfl <;> decide
  rw [skipFields, hskip]
  simp [hstart]

theorem afterColon_gap {gap : List Char} (hgap : gap.all isBlank) (rest : List Char) :
    afterColon (gap ++ ':' :: rest) = some rest := by
  rw [afterColon, skipBlank_gap hgap rfl]
  rfl

theorem skipItems_sequence {element : List Char → Unit → Prop}
    (helement : ∀ text u, element text u → Skips text) {first : Bool} {body : List Char}
    {units : List Unit} (h : Sequence ']' element first body units) {n : Nat}
    (hn : body.length ≤ n) (rest : List Char) : skipItems n first (body ++ rest) = some rest := by
  induction h generalizing n with
  | @close first gap hgap =>
      obtain ⟨m, rfl⟩ : ∃ m, n = m + 1 := ⟨n - 1, by simp at hn; omega⟩
      rw [skipItems, List.append_assoc, List.singleton_append, skipBlank_gap hgap rfl]
      rfl
  | @element first separator text tail u units hseparator htext htail ih =>
      have hskips := helement text u htext
      -- The closing bracket leaves the item shorter than the count that is left for it.
      have htail_pos := htail.length_le
      obtain ⟨c, cs, rfl, hblank, hclose⟩ := hskips.starts
      simp only [List.length_append, List.length_cons, Bool.toNat_false] at hn htail_pos
      obtain ⟨m, rfl⟩ : ∃ m, n = m + 1 := ⟨n - 1, by omega⟩
      have hvalue : skipValue m (c :: (cs ++ (tail ++ rest))) = some (tail ++ rest) :=
        hskips.skips (by rw [List.length_cons]; omega) (htail.stops (.inl rfl) rest)
      simp only [List.append_assoc, List.cons_append]
      rw [skipItems_element hseparator hblank hclose, hvalue]
      exact ih (by omega)

theorem skipFields_sequence {inner : List Char → Prop} (hinner : ∀ text, inner text → Skips text)
    {first : Bool} {body : List Char} {units : List Unit}
    (h : Sequence '}' (fun text _ => ∃ key value, IsLiteral key ∧ inner value ∧
      Member key value text) first body units) {n : Nat} (hn : body.length ≤ n)
    (rest : List Char) : skipFields n first (body ++ rest) = some rest := by
  induction h generalizing n with
  | @close first gap hgap =>
      obtain ⟨m, rfl⟩ : ∃ m, n = m + 1 := ⟨n - 1, by simp at hn; omega⟩
      rw [skipFields, List.append_assoc, List.singleton_append, skipBlank_gap hgap rfl]
      rfl
  | @element first separator text tail u units hseparator htext htail ih =>
      obtain ⟨key, value, hkey, hvalue, ⟨hgap, hgap'⟩⟩ := htext
      obtain ⟨name, rfl, hname⟩ := hkey.skipString
      simp only [List.length_append, List.length_cons] at hn
      obtain ⟨m, rfl⟩ : ∃ m, n = m + 1 := ⟨n - 1, by omega⟩
      have hskip : skipValue m (value ++ (tail ++ rest)) = some (tail ++ rest) :=
        (hinner value hvalue).skips (by omega) (htail.stops (.inr rfl) rest)
      simp only [List.append_assoc, List.cons_append]
      rw [skipFields_element hseparator, hname, Option.bind_some, afterColon_gap hgap,
        Option.bind_some, skipValue_append hgap', hskip]
      exact ih (by omega)

theorem skips_compound {inner : List Char → Prop} (hinner : ∀ text, inner text → Skips text)
    {text : List Char} (h : Compound inner text) : Skips text := by
  cases h with
  | array h =>
      refine ⟨⟨'[', _, rfl, rfl, by decide⟩, fun {n rest} hn _ => ?_⟩
      obtain ⟨m, rfl⟩ := Nat.exists_eq_add_of_lt (Nat.lt_of_lt_of_le (Nat.succ_pos _) hn)
      rw [List.length_cons] at hn
      rw [skipValue, List.cons_append, skipBlank_cons rfl]
      exact skipItems_sequence (fun text _ => hinner text) h (by omega) rest
  | object h =>
      refine ⟨⟨'{', _, rfl, rfl, by decide⟩, fun {n rest} hn _ => ?_⟩
      obtain ⟨m, rfl⟩ := Nat.exists_eq_add_of_lt (Nat.lt_of_lt_of_le (Nat.succ_pos _) hn)
      rw [List.length_cons] at hn
      rw [skipValue, List.cons_append, skipBlank_cons rfl]
      exact skipFields_sequence hinner h (by omega) rest

/-- Well-formed values are stepped over, however deep they are. -/
theorem skips_written {depth : Nat} {text : List Char} (h : Written depth text) : Skips text := by
  induction depth generalizing text with
  | zero => exact skips_scalar h
  | succ depth ih =>
      rcases h with h | h
      · exact skips_scalar h
      · exact skips_compound (fun _ => ih) h

end ignored

end DiamondScript.Json
