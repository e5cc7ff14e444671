import DiamondScript.Proofs.Coverage
import DiamondScript.Proofs.Packing
import DiamondScript.Text.Utf8

namespace DiamondScript

open Lexer

instance (source : String) (span : Span) : Decidable (span.Within source) :=
  decidable_of_iff
    (span.start ≤ span.stop ∧ span.stop ≤ source.utf8ByteSize ∧
      String.Pos.Raw.IsValid source ⟨span.start⟩ ∧ String.Pos.Raw.IsValid source ⟨span.stop⟩)
    ⟨fun ⟨a, b, c, d⟩ => ⟨a, b, c, d⟩, fun ⟨a, b, c, d⟩ => ⟨a, b, c, d⟩⟩

namespace ByteLexer

/-- The part of a source text between two byte offsets. There is none off a character
boundary. -/
def slice? (source : String) (span : Span) : Option (List Char) :=
  if span.Within source then some (span.text source.toList) else none

/-- A scan of bytes, which breaks off where it asks for a slice that there is not. -/
abbrev Run := ExceptT LexError Option

/-- The character with the code of the byte. It is the one that the byte encodes up to 127. -/
def latin (b : UInt8) : Char := Char.ofNat b.toNat

def peek (bs : List UInt8) (i : Nat) : Option Char := bs[i]?.map latin

/-- The offset behind blanks and comments. The flag tells whether it is inside a comment. -/
def skipLayout : Bool → Nat → List UInt8 → Nat
  | _, pos, [] => pos
  | true, pos, b :: bs => skipLayout (latin b ≠ '\n') (pos + 1) bs
  | false, pos, b :: bs =>
    if isBlank (latin b) then skipLayout false (pos + 1) bs
    else if latin b = '/' ∧ peek bs 0 = some '/' then skipLayout true (pos + 1) bs
    else pos

/-- The offset where a literal ends, and whether its closing quote stands there. A backslash
takes the byte behind it along, also where that is the first of several of a character. -/
def quotedEnd (quote : Char) : Nat → List UInt8 → Nat × Bool
  | pos, [] => (pos, false)
  | pos, [b] =>
    if latin b = quote then (pos, true)
    else if latin b = '\n' then (pos, false) else (pos + 1, false)
  | pos, b :: d :: bs =>
    if latin b = quote then (pos, true)
    else if latin b = '\\' ∧ latin d ≠ '\n' then quotedEnd quote (pos + 2) bs
    else if latin b = '\n' then (pos, false) else quotedEnd quote (pos + 1) (d :: bs)

def scanLiteral (source : String) (start opening : Nat) (quote : Char) (make : String → Token)
    (bs : List UInt8) : Run Lexeme :=
  match quotedEnd quote (opening + 1) bs with
  | (stop, true) => do
    let body ← slice? source ⟨opening + 1, stop⟩
    return ⟨make (String.ofList body), ⟨start, stop + 1⟩⟩
  | (stop, false) => throw ⟨.unterminatedLiteral, ⟨opening, stop⟩⟩

def count (p : Char → Bool) (bs : List UInt8) : Nat := (bs.takeWhile fun b => p (latin b)).length

def decimalValue (text : List Char) : Binary64 :=
  let whole := text.takeWhile Char.isDigit
  let fraction := (text.dropWhile Char.isDigit).drop 1
  Binary64.ofDecimal false (natOfDigits (whole ++ fraction)) (-fraction.length)

def numberLength (bs : List UInt8) : Nat :=
  let whole := count Char.isDigit bs
  let fraction := count Char.isDigit (bs.drop (whole + 1))
  if peek bs whole = some '.' ∧ fraction ≠ 0 then whole + 1 + fraction else whole

def scanNumber (source : String) (start : Nat) (bs : List UInt8) : Run Lexeme := do
  let stop := start + numberLength bs
  let text ← slice? source ⟨start, stop⟩
  return ⟨.number (decimalValue text), ⟨start, stop⟩⟩

def scanWord (source : String) (start : Nat) (bs : List UInt8) : Run Lexeme := do
  let stop := start + count isWordChar bs
  let word ← slice? source ⟨start, stop⟩
  return ⟨wordToken (String.ofList word), ⟨start, stop⟩⟩

def scanTarget (source : String) (start : Nat) (bs : List UInt8) : Run Lexeme := do
  let stop := start + 1 + count isWordChar bs
  let word ← slice? source ⟨start + 1, stop⟩
  match Target.ofKeyword? (String.ofList word) with
  | some t => return ⟨.target t, ⟨start, stop⟩⟩
  | none => throw ⟨.unknownTarget (String.ofList word), ⟨start, stop⟩⟩

def scanUnexpected (source : String) (start : Nat) : Run Lexeme := do
  let rest ← slice? source ⟨start, source.utf8ByteSize⟩
  let c := rest.headD '?'
  throw ⟨.unexpectedCharacter c, ⟨start, start + c.utf8Size⟩⟩

def scanMark (source : String) (start : Nat) (c : Char) (bs : List UInt8) : Run Lexeme :=
  if c = '.' ∧ peek bs 0 = some '.' ∧ peek bs 1 = some '.' then
    return ⟨.mark .ellipsis, ⟨start, start + 3⟩⟩
  else
    match markOf? c with
    | some m => return ⟨.mark m, ⟨start, start + 1⟩⟩
    | none => scanUnexpected source start

def scanToken (source : String) (start : Nat) (b : UInt8) (bs : List UInt8) : Run Lexeme :=
  let c := latin b
  if c = '"' then scanLiteral source start start '"' .string bs
  else if c = '`' then scanLiteral source start start '`' .styledText bs
  else if c = '$' then
    if peek bs 0 = some '"' then scanLiteral source start (start + 1) '"' .varName (bs.drop 1)
    else throw ⟨.quoteExpected, ⟨start, start + 1⟩⟩
  else if c = '@' then scanTarget source start bs
  else if c.isDigit then scanNumber source start (b :: bs)
  else if isWordStart c then scanWord source start (b :: bs)
  else scanMark source start c bs

def scanAll (source : String) : Nat → Nat → Run (List Lexeme)
  | 0, pos => return [⟨.eof, ⟨pos, pos⟩⟩]
  | n + 1, pos => do
    let start := skipLayout false pos ((Text.utf8Bytes source).drop pos)
    match (Text.utf8Bytes source).drop start with
    | [] => return [⟨.eof, ⟨start, start⟩⟩]
    | b :: bs =>
      let lexeme ← scanToken source start b bs
      let lexemes ← scanAll source n lexeme.span.stop
      return lexeme :: lexemes

def lex (source : String) : Run (List Lexeme) := scanAll source (source.utf8ByteSize + 1) 0

def encode (cs : List Char) : List UInt8 := cs.flatMap String.utf8EncodeChar

theorem encode_cons (c : Char) (cs : List Char) :
    encode (c :: cs) = String.utf8EncodeChar c ++ encode cs := List.flatMap_cons

theorem encode_append (cs ds : List Char) : encode (cs ++ ds) = encode cs ++ encode ds :=
  List.flatMap_append

theorem length_encode (cs : List Char) : (encode cs).length = width cs := by
  induction cs with
  | nil => rfl
  | cons c cs ih =>
      rw [encode_cons, List.length_append, String.length_utf8EncodeChar, ih, width_cons]

theorem length_le_width (cs : List Char) : cs.length ≤ width cs := by
  induction cs with
  | nil => exact Nat.le_refl 0
  | cons c cs ih =>
      have hpos := c.utf8Size_pos
      rw [List.length_cons, width_cons]
      omega

theorem utf8Bytes_eq_encode (source : String) : Text.utf8Bytes source = encode source.toList := by
  have hbytes (cs : List Char) : Text.utf8Bytes (String.ofList cs) = encode cs := by
    simp [Text.utf8Bytes, List.utf8Encode, encode]
  rw [← hbytes, String.ofList_toList]

theorem toNat_latin (b : UInt8) : (latin b).toNat = b.toNat := by
  have hvalid : b.toNat.isValidChar := .inl (by have := b.toNat_lt; omega)
  rw [latin, Char.ofNat, dif_pos hvalid]
  rfl

/-- A byte of a character of several bytes. -/
def High (b : UInt8) : Prop := 128 ≤ (latin b).toNat

theorem utf8EncodeChar_high {c : Char} (h : 128 ≤ c.toNat) :
    ∀ b ∈ String.utf8EncodeChar c, High b := by
  have hv : ¬ c.val.toNat ≤ 127 := by
    change ¬ c.toNat ≤ 127
    omega
  have hbyte {k : Nat} (hlow : 128 ≤ k) (hhigh : k < 256) : High (UInt8.ofNat k) := by
    rw [High, toNat_latin, UInt8.toNat_ofNat_of_lt' hhigh]
    exact hlow
  unfold String.utf8EncodeChar
  simp only [if_neg hv]
  split
  · simp only [List.forall_mem_cons, List.not_mem_nil, false_imp_iff, implies_true, and_true]
    exact ⟨hbyte (by omega) (by omega), hbyte (by omega) (by omega)⟩
  split
  · simp only [List.forall_mem_cons, List.not_mem_nil, false_imp_iff, implies_true, and_true]
    exact ⟨hbyte (by omega) (by omega), hbyte (by omega) (by omega), hbyte (by omega) (by omega)⟩
  · simp only [List.forall_mem_cons, List.not_mem_nil, false_imp_iff, implies_true, and_true]
    exact ⟨hbyte (by omega) (by omega), hbyte (by omega) (by omega), hbyte (by omega) (by omega),
      hbyte (by omega) (by omega)⟩

theorem utf8EncodeChar_cases (c : Char) :
    ∃ b more, String.utf8EncodeChar c = b :: more ∧ c.utf8Size = more.length + 1 ∧
      ((c.toNat < 128 ∧ latin b = c ∧ more = []) ∨
        (128 ≤ c.toNat ∧ High b ∧ ∀ d ∈ more, High d)) := by
  by_cases hc : c.toNat < 128
  · have hone := Text.utf8EncodeChar_plain hc
    have hsize := String.length_utf8EncodeChar c
    rw [hone] at hsize
    refine ⟨_, [], hone, hsize.symm, .inl ⟨hc, ?_, rfl⟩⟩
    rw [latin, UInt8.toNat_ofNat_of_lt' (Nat.lt_trans hc (by decide)), Char.ofNat_toNat]
  · have hhigh := utf8EncodeChar_high (Nat.le_of_not_lt hc)
    have hsize := String.length_utf8EncodeChar c
    have hpos := c.utf8Size_pos
    cases hbytes : String.utf8EncodeChar c with
    | nil =>
        rw [hbytes, List.length_nil] at hsize
        omega
    | cons b more =>
        rw [hbytes] at hhigh hsize
        obtain ⟨hb, hmore⟩ := List.forall_mem_cons.mp hhigh
        exact ⟨b, more, rfl, hsize.symm, .inr ⟨Nat.le_of_not_lt hc, hb, hmore⟩⟩

/-- Only characters of one byte satisfy the predicate. -/
def Plain (p : Char → Bool) : Prop := ∀ c, p c → c.toNat < 128

theorem plain_isDigit : Plain Char.isDigit := by
  intro c h
  exact Nat.lt_of_le_of_lt (Char.isDigit_iff_toNat.mp h).2 (by decide)

theorem plain_isWordChar : Plain isWordChar := by
  intro c h
  have hle {d : Char} (h : c.val ≤ d.val) (hd : d.toNat < 128) : c.toNat < 128 :=
    Nat.lt_of_le_of_lt (UInt32.le_iff_toNat_le.mp h) hd
  simp only [isWordChar, Char.isAlphanum, Bool.or_eq_true, decide_eq_true_eq] at h
  obtain (halpha | hdigit) | rfl := h
  · obtain hupper | hlower := (Bool.or_eq_true _ _).mp halpha
    · exact hle (d := 'Z') (of_decide_eq_true hupper).2 (by decide)
    · exact hle (d := 'z') (of_decide_eq_true ((Bool.and_eq_true _ _).mp hlower).2) (by decide)
  · exact plain_isDigit c hdigit
  · decide

theorem plain_isBlank : Plain isBlank := by
  intro c h
  rcases isBlank_iff.mp h with rfl | rfl | rfl | rfl <;> decide

theorem Plain.eq_false {p : Char → Bool} (hp : Plain p) {c : Char} (hc : 128 ≤ c.toNat) :
    p c = false := by
  by_contra h
  have hlt := hp c (by simpa using h)
  omega

theorem ne_of_high {c d : Char} (hc : 128 ≤ c.toNat) (hd : d.toNat < 128) : c ≠ d := by
  rintro rfl
  omega

theorem encode_cons_plain {c : Char} (hc : c.toNat < 128) (cs : List Char) :
    ∃ b, latin b = c ∧ encode (c :: cs) = b :: encode cs := by
  obtain ⟨b, more, hbytes, -, ⟨-, hb, rfl⟩ | ⟨hhigh, -⟩⟩ := utf8EncodeChar_cases c
  · exact ⟨b, hb, by rw [encode_cons, hbytes, List.singleton_append]⟩
  · omega

theorem peek_encode {c : Char} (hc : c.toNat < 128) (cs : List Char) :
    peek (encode cs) 0 = some c ↔ cs.head? = some c := by
  cases cs with
  | nil => exact ⟨nofun, nofun⟩
  | cons d ds =>
      obtain ⟨b, more, hbytes, -, hplain | hhigh⟩ := utf8EncodeChar_cases d
      · rw [encode_cons, hbytes, ← hplain.2.1]
        rfl
      · rw [encode_cons, hbytes]
        constructor
        · intro h
          exact absurd (Option.some.inj h) (ne_of_high hhigh.2.1 hc)
        · intro h
          exact absurd (Option.some.inj h) (ne_of_high hhigh.1 hc)

theorem takeWhile_encode {p : Char → Bool} (hp : Plain p) (cs : List Char) :
    (encode cs).takeWhile (fun b => p (latin b)) = encode (cs.takeWhile p) ∧
      (encode cs).dropWhile (fun b => p (latin b)) = encode (cs.dropWhile p) := by
  induction cs with
  | nil => exact ⟨rfl, rfl⟩
  | cons c cs ih =>
      obtain ⟨b, more, hbytes, -, ⟨-, rfl, rfl⟩ | ⟨hc, hb, -⟩⟩ := utf8EncodeChar_cases c
      · rw [encode_cons, hbytes, List.singleton_append, List.takeWhile_cons, List.dropWhile_cons,
          List.takeWhile_cons, List.dropWhile_cons]
        split
        · rw [encode_cons, hbytes, ih.1, ih.2]
          exact ⟨rfl, rfl⟩
        · rw [encode_cons, hbytes]
          exact ⟨rfl, rfl⟩
      · have hhead := hp.eq_false hb
        rw [List.takeWhile_cons_of_neg (by simp [hp.eq_false hc]),
          List.dropWhile_cons_of_neg (by simp [hp.eq_false hc]), encode_cons, hbytes,
          List.cons_append, List.takeWhile_cons_of_neg (by simp [hhead]),
          List.dropWhile_cons_of_neg (by simp [hhead])]
        exact ⟨rfl, rfl⟩

theorem count_encode {p : Char → Bool} (hp : Plain p) (cs : List Char) :
    count p (encode cs) = width (cs.takeWhile p) := by
  rw [count, (takeWhile_encode hp cs).1, length_encode]

theorem drop_encode (as bs : List Char) : (encode (as ++ bs)).drop (width as) = encode bs := by
  rw [encode_append, ← length_encode, List.drop_left]

theorem slice?_eq {source : String} {before text after : List Char}
    (h : source.toList = before ++ (text ++ after)) :
    slice? source ⟨width before, width before + width text⟩ = some text := by
  have hwithin := Span.within_of_split h
  rw [width_append] at hwithin
  rw [slice?, if_pos hwithin, h, Span.text_eq]

example : slice? "é" ⟨0, 1⟩ = none := by decide

theorem skipLayout_high {bs : List UInt8} (h : ∀ b ∈ bs, High b) (pos : Nat) (rest : List UInt8) :
    skipLayout true pos (bs ++ rest) = skipLayout true (pos + bs.length) rest := by
  induction bs generalizing pos with
  | nil => rfl
  | cons b bs ih =>
      obtain ⟨hb, hbs⟩ := List.forall_mem_cons.mp h
      have hline : latin b ≠ '\n' := ne_of_high hb (by decide)
      rw [List.cons_append, skipLayout, decide_eq_true hline, ih hbs, List.length_cons,
        Nat.add_assoc, Nat.add_comm 1]

theorem skipLayout_encode (comment : Bool) (pos : Nat) (cs : List Char) :
    skipLayout comment pos (encode cs) = (Lexer.skipLayout comment pos cs).1 := by
  induction cs generalizing comment pos with
  | nil => cases comment <;> rfl
  | cons c cs ih =>
      obtain ⟨b, more, hbytes, hsize, ⟨-, rfl, rfl⟩ | ⟨hc, hb, hmore⟩⟩ := utf8EncodeChar_cases c
      · rw [encode_cons, hbytes, List.singleton_append]
        have hone : (latin b).utf8Size = 1 := hsize
        cases comment with
        | true =>
            rw [skipLayout, Lexer.skipLayout, ih, hone]
            by_cases hline : latin b = '\n'
            · rw [if_pos hline, decide_eq_false (by simpa using hline)]
            · rw [if_neg hline, decide_eq_true hline]
        | false =>
            rw [skipLayout, Lexer.skipLayout, ih, ih]
            simp only [peek_encode (c := '/') (by decide)]
            split
            · rfl
            · split <;> rfl
      · rw [encode_cons, hbytes]
        cases comment with
        | true =>
            rw [skipLayout_high (List.forall_mem_cons.mpr ⟨hb, hmore⟩), ih, Lexer.skipLayout,
              if_neg (ne_of_high hc (by decide)), hsize]
            rfl
        | false =>
            have hslash (s : Prop) : ¬ (latin b = '/' ∧ s) :=
              fun h => ne_of_high hb (by decide) h.1
            have hslash' (s : Prop) : ¬ (c = '/' ∧ s) := fun h => ne_of_high hc (by decide) h.1
            rw [List.cons_append, skipLayout, Lexer.skipLayout, plain_isBlank.eq_false hb,
              plain_isBlank.eq_false hc, if_neg (hslash _), if_neg (hslash' _)]
            rfl

def quotedPlace (pos : Nat) : Quoted → Nat × Bool
  | .closed body _ => (pos + width body, true)
  | .unclosed body => (pos + width body, false)

theorem quotedPlace_push (pos : Nat) (cs : List Char) (q : Quoted) :
    quotedPlace pos (q.push cs) = quotedPlace (pos + width cs) q := by
  cases q <;> simp [Quoted.push, quotedPlace, width_append, Nat.add_assoc]

theorem quotedEnd_cons (quote : Char) (pos : Nat) (b : UInt8) (bs : List UInt8) :
    quotedEnd quote pos (b :: bs) =
      if latin b = quote then (pos, true)
      else if latin b = '\\' ∧ peek bs 0 ≠ none ∧ peek bs 0 ≠ some '\n' then
        quotedEnd quote (pos + 2) (bs.drop 1)
      else if latin b = '\n' then (pos, false) else quotedEnd quote (pos + 1) bs := by
  cases bs <;> simp [quotedEnd, peek]

theorem quotedEnd_high {quote : Char} (hquote : quote.toNat < 128) {bs : List UInt8}
    (h : ∀ b ∈ bs, High b) (pos : Nat) (rest : List UInt8) :
    quotedEnd quote pos (bs ++ rest) = quotedEnd quote (pos + bs.length) rest := by
  induction bs generalizing pos with
  | nil => rfl
  | cons b bs ih =>
      obtain ⟨hb, hbs⟩ := List.forall_mem_cons.mp h
      rw [List.cons_append, quotedEnd_cons, if_neg (ne_of_high hb hquote),
        if_neg fun h => ne_of_high hb (by decide) h.1, if_neg (ne_of_high hb (by decide)), ih hbs,
        List.length_cons, Nat.add_assoc, Nat.add_comm 1]

section

variable {quote : Char} (hquote : quote.toNat < 128)

include hquote

theorem quotedEnd_encode_quote (ds : List Char) (pos : Nat) :
    quotedEnd quote pos (encode (quote :: ds)) = (pos, true) := by
  obtain ⟨b, hb, hbytes⟩ := encode_cons_plain hquote ds
  rw [hbytes, quotedEnd_cons, if_pos hb]

omit hquote in
theorem quotedEnd_encode_newline (hn : '\n' ≠ quote) (ds : List Char) (pos : Nat) :
    quotedEnd quote pos (encode ('\n' :: ds)) = (pos, false) := by
  obtain ⟨b, hb, hbytes⟩ := @encode_cons_plain '\n' (by decide) ds
  rw [hbytes, quotedEnd_cons, hb, if_neg hn, if_neg fun h => absurd h.1 (by decide), if_pos rfl]

theorem quotedEnd_encode_plain {c : Char} (hc : c ≠ quote) (hn : c ≠ '\n') {ds : List Char}
    (hescape : c = '\\' → ds.head? = none ∨ ds.head? = some '\n') (pos : Nat) :
    quotedEnd quote pos (encode (c :: ds)) = quotedEnd quote (pos + c.utf8Size) (encode ds) := by
  obtain ⟨b, more, hbytes, hsize, ⟨-, rfl, rfl⟩ | ⟨-, hb, hmore⟩⟩ := utf8EncodeChar_cases c
  · have hnone : ¬ (latin b = '\\' ∧ peek (encode ds) 0 ≠ none ∧
        peek (encode ds) 0 ≠ some '\n') := by
      rintro ⟨hb, hsome, hline⟩
      rcases hescape hb with hds | hds
      · rw [List.head?_eq_none_iff.mp hds] at hsome
        exact hsome rfl
      · exact hline ((peek_encode (by decide) ds).mpr hds)
    rw [encode_cons, hbytes, List.singleton_append, quotedEnd_cons, if_neg hc, if_neg hnone,
      if_neg hn, hsize]
    rfl
  · rw [encode_cons, hbytes, quotedEnd_high hquote (List.forall_mem_cons.mpr ⟨hb, hmore⟩), hsize]
    rfl

/-- The byte behind a backslash is skipped, and with it the whole of its character: none of the
bytes that follow can end a literal. -/
theorem quotedEnd_encode_escape (hc : '\\' ≠ quote) {d : Char} (hd : d ≠ '\n') (ds : List Char)
    (pos : Nat) :
    quotedEnd quote pos (encode ('\\' :: d :: ds)) =
      quotedEnd quote (pos + (1 + d.utf8Size)) (encode ds) := by
  obtain ⟨b, more, hbytes, hsize, hcases⟩ := utf8EncodeChar_cases d
  have hmore : ∀ x ∈ more, High x := by
    rcases hcases with ⟨-, -, rfl⟩ | ⟨-, -, hmore⟩
    · simp
    · exact hmore
  have hnext : peek (encode (d :: ds)) 0 ≠ none ∧ peek (encode (d :: ds)) 0 ≠ some '\n' := by
    constructor
    · rw [encode_cons, hbytes]
      simp [peek]
    · rw [Ne, peek_encode (by decide)]
      simpa using hd
  obtain ⟨e, he, hbackslash⟩ := @encode_cons_plain '\\' (by decide) (d :: ds)
  rw [hbackslash, quotedEnd_cons, he, if_neg hc, if_pos ⟨rfl, hnext⟩, encode_cons, hbytes,
    List.cons_append, List.drop_one, List.tail_cons, quotedEnd_high hquote hmore, hsize]
  congr 1
  omega

/-- The bytes of a literal end where its characters do, whatever characters follow the
backslashes. -/
theorem quotedEnd_encode (pos : Nat) (cs : List Char) :
    quotedEnd quote pos (encode cs) = quotedPlace pos (scanQuoted quote cs) := by
  fun_induction scanQuoted quote cs generalizing pos with
  | case1 => rfl
  | case2 => exact quotedEnd_encode_quote hquote [] pos
  | case3 hc => exact quotedEnd_encode_newline hc [] pos
  | case4 c hc hn =>
      rw [quotedEnd_encode_plain hquote hc hn fun _ => .inl rfl]
      simp [quotedPlace, width, encode, quotedEnd]
  | case5 d ds => exact quotedEnd_encode_quote hquote (d :: ds) pos
  | case6 d ds hc => exact quotedEnd_encode_newline hc (d :: ds) pos
  | case7 c d ds hc hn hescape ih =>
      obtain ⟨rfl, hd⟩ := hescape
      rw [quotedEnd_encode_escape hquote hc hd, ih, quotedPlace_push]
      rfl
  | case8 c d ds hc hn hescape ih =>
      rw [quotedEnd_encode_plain hquote hc hn ?_, ih, quotedPlace_push, width_cons]
      · rfl
      · intro hbackslash
        refine .inr ?_
        by_contra hd
        exact hescape ⟨hbackslash, fun h => hd (by rw [h]; rfl)⟩

end

theorem utf8Size_plain {c : Char} (hc : c.toNat < 128) : c.utf8Size = 1 := by
  obtain ⟨b, more, -, hsize, ⟨-, -, rfl⟩ | ⟨hhigh, -⟩⟩ := utf8EncodeChar_cases c
  · exact hsize
  · omega

theorem width_singleton {c : Char} (hc : c.toNat < 128) : width [c] = 1 :=
  (width_cons c []).trans (utf8Size_plain hc)

theorem run_bind {α β γ : Type} {x : Run α} {y : Except LexError β} {φ : β → α}
    (h : x.run = some (y.map φ)) {f : α → Run γ} {g : β → Except LexError γ}
    (hfg : ∀ b, y = .ok b → (f (φ b)).run = some (g b)) : (x >>= f).run = some (y >>= g) := by
  rw [ExceptT.run_bind, h]
  cases y with
  | error e => rfl
  | ok b => exact hfg b rfl

theorem some_bind {α β : Type} (a : α) (f : α → Run β) : (liftM (some a) >>= f) = f a := rfl

def Agrees (run : Run Lexeme) (scan : Scan) : Prop := run.run = some (scan.map Prod.fst)

section

variable {source : String} {before cs : List Char}

theorem scanLiteral_agrees {lead : List Char} {quote : Char} (hquote : quote.toNat < 128)
    (make : String → Token) (h : source.toList = before ++ (lead ++ quote :: cs)) :
    Agrees (scanLiteral source (width before) (width (before ++ lead)) quote make (encode cs))
      (Lexer.scanLiteral (width before) lead quote make cs) := by
  have hopen := width_singleton hquote
  unfold scanLiteral Lexer.scanLiteral
  rw [quotedEnd_encode hquote]
  cases hq : scanQuoted quote cs with
  | closed body rest =>
      obtain ⟨rfl, -⟩ := scanQuoted_closed hq
      have hsplit : source.toList = (before ++ lead ++ [quote]) ++ (body ++ quote :: rest) := by
        simp [h]
      have hslice := slice?_eq hsplit
      rw [width_append, hopen] at hslice
      simp only [quotedPlace, hslice]
      have hstop : width (before ++ lead) + 1 + width body + 1 =
          width before + width (lead ++ quote :: (body ++ [quote])) := by
        simp only [width_append, width_cons, utf8Size_plain hquote, hopen]
        omega
      rw [hstop]
      rfl
  | unclosed body =>
      have hstop : width (before ++ lead) + 1 + width body =
          width before + width (lead ++ quote :: body) := by
        simp only [width_append, width_cons, utf8Size_plain hquote]
        omega
      simp only [quotedPlace]
      rw [hstop, width_append before lead]
      rfl

theorem scanWord_agrees (h : source.toList = before ++ cs) :
    Agrees (scanWord source (width before) (encode cs)) (Lexer.scanWord (width before) cs) := by
  rw [← List.takeWhile_append_dropWhile (p := isWordChar) (l := cs)] at h
  unfold scanWord Lexer.scanWord
  simp only [count_encode plain_isWordChar, slice?_eq h]
  rfl

theorem scanTarget_agrees (h : source.toList = before ++ '@' :: cs) :
    Agrees (scanTarget source (width before) (encode cs)) (Lexer.scanTarget (width before) cs) := by
  have hopen := @width_singleton '@' (by decide)
  have hsplit : source.toList =
      (before ++ ['@']) ++ (cs.takeWhile isWordChar ++ cs.dropWhile isWordChar) := by
    rw [List.takeWhile_append_dropWhile, h, List.append_assoc, List.singleton_append]
  have hslice := slice?_eq hsplit
  rw [width_append, hopen] at hslice
  have hstop : width before + 1 + width (cs.takeWhile isWordChar) =
      width before + width ('@' :: cs.takeWhile isWordChar) := by
    rw [width_cons, utf8Size_plain (by decide), Nat.add_assoc]
  unfold scanTarget Lexer.scanTarget
  simp only [count_encode plain_isWordChar, hslice, some_bind]
  rw [hstop]
  cases Target.ofKeyword? (String.ofList (cs.takeWhile isWordChar)) <;> rfl

theorem peek_drop (bs : List UInt8) (n : Nat) : peek bs n = peek (bs.drop n) 0 := by
  rw [peek, peek, List.getElem?_drop, Nat.add_zero]

theorem decimalValue_whole {whole : List Char} (h : ∀ d ∈ whole, d.isDigit) :
    decimalValue whole = Binary64.ofDecimal false (natOfDigits whole) 0 := by
  have htake : whole.takeWhile Char.isDigit = whole := List.takeWhile_eq_self_iff.mpr h
  have hdrop : whole.dropWhile Char.isDigit = [] := List.dropWhile_eq_nil_iff.mpr h
  simp [decimalValue, htake, hdrop]

theorem decimalValue_fraction {whole fraction : List Char} (h : ∀ d ∈ whole, d.isDigit) :
    decimalValue (whole ++ '.' :: fraction) =
      Binary64.ofDecimal false (natOfDigits (whole ++ fraction)) (-fraction.length) := by
  have hpoint : ¬ Char.isDigit '.' := by decide
  have htake : (whole ++ '.' :: fraction).takeWhile Char.isDigit = whole := by
    rw [List.takeWhile_append_of_pos h, List.takeWhile_cons_of_neg hpoint, List.append_nil]
  have hdrop : (whole ++ '.' :: fraction).dropWhile Char.isDigit = '.' :: fraction := by
    rw [List.dropWhile_append_of_pos h, List.dropWhile_cons_of_neg hpoint]
  simp [decimalValue, htake, hdrop]

theorem numberLength_eq (cs : List Char) :
    let whole := cs.takeWhile Char.isDigit
    let rest := cs.dropWhile Char.isDigit
    let fraction := count Char.isDigit ((encode rest).drop 1)
    numberLength (encode cs) =
      if rest.head? = some '.' ∧ fraction ≠ 0 then width whole + 1 + fraction else width whole := by
  intro whole rest fraction
  have hrest : (encode cs).drop (width whole) = encode rest := by
    conv_lhs => rw [← List.takeWhile_append_dropWhile (p := Char.isDigit) (l := cs)]
    exact drop_encode whole rest
  have hpoint := peek_encode (c := '.') (by decide) rest
  simp only [numberLength, count_encode plain_isDigit]
  rw [← List.drop_drop, peek_drop, hrest]
  simp only [hpoint]
  rfl

theorem numberLength_encode (pos : Nat) (cs : List Char) :
    ∃ text rest, cs = text ++ rest ∧ numberLength (encode cs) = width text ∧
      Lexer.scanNumber pos cs = emit pos (.number (decimalValue text)) text rest := by
  have hwhole : ∀ d ∈ cs.takeWhile Char.isDigit, d.isDigit := fun d hd => List.mem_takeWhile_imp hd
  have hcs := (List.takeWhile_append_dropWhile (p := Char.isDigit) (l := cs)).symm
  have hlength := numberLength_eq cs
  unfold Lexer.scanNumber
  dsimp only at hlength ⊢
  split
  case h_1 rest hpoint =>
    have hfraction : ((encode (cs.dropWhile Char.isDigit)).drop 1) = encode rest := by
      obtain ⟨b, -, hbytes⟩ := @encode_cons_plain '.' (by decide) rest
      rw [hpoint, hbytes]
      rfl
    rw [hfraction, count_encode plain_isDigit] at hlength
    rw [hpoint] at hcs
    split
    case isTrue hempty =>
      rw [List.isEmpty_iff.mp hempty, if_neg fun h => h.2 rfl] at hlength
      exact ⟨_, _, hcs, hlength, by rw [decimalValue_whole hwhole]⟩
    case isFalse hne =>
      have hpos : width (rest.takeWhile Char.isDigit) ≠ 0 := by
        cases hfirst : rest.takeWhile Char.isDigit with
        | nil => exact absurd (by rw [hfirst]; rfl) hne
        | cons d ds =>
            have := d.utf8Size_pos
            rw [width_cons]
            omega
      rw [hpoint, if_pos ⟨rfl, hpos⟩] at hlength
      refine ⟨_, _, ?_, ?_, by rw [decimalValue_fraction hwhole]⟩
      · rw [List.append_assoc, List.cons_append, List.takeWhile_append_dropWhile]
        exact hcs
      · rw [hlength, width_append, width_cons, utf8Size_plain (by decide), Nat.add_assoc]
  case h_2 hno =>
    refine ⟨_, _, hcs, ?_, by rw [decimalValue_whole hwhole]⟩
    rw [hlength, if_neg]
    rintro ⟨hpoint, -⟩
    obtain ⟨rest, hrest⟩ := List.head?_eq_some_iff.mp hpoint
    exact hno rest hrest

theorem scanNumber_agrees (h : source.toList = before ++ cs) :
    Agrees (scanNumber source (width before) (encode cs)) (Lexer.scanNumber (width before) cs) := by
  obtain ⟨text, rest, rfl, hlength, hscan⟩ := numberLength_encode (width before) cs
  unfold scanNumber
  simp only [hlength, slice?_eq h, hscan]
  rfl

theorem markOf?_high {c : Char} (hc : 128 ≤ c.toNat) : markOf? c = none := by
  unfold markOf?
  split <;> first | rfl | exact absurd hc (by decide)

theorem scanUnexpected_agrees {c : Char} (h : source.toList = before ++ c :: cs) :
    Agrees (scanUnexpected source (width before))
      (.error ⟨.unexpectedCharacter c, ⟨width before, width before + c.utf8Size⟩⟩) := by
  have hsize : source.utf8ByteSize = width before + width (c :: cs) := by
    rw [← width_append, ← h, ← utf8ByteSize_ofList, String.ofList_toList]
  have hsplit : source.toList = before ++ ((c :: cs) ++ []) := by rw [h, List.append_nil]
  rw [scanUnexpected, hsize, slice?_eq hsplit]
  rfl

theorem peek_one {c : Char} (hc : c.toNat < 128) (cs : List Char) :
    peek (encode (c :: cs)) 1 = peek (encode cs) 0 := by
  obtain ⟨b, -, hbytes⟩ := encode_cons_plain hc cs
  rw [hbytes, peek_drop]
  rfl

theorem peek_dots (cs : List Char) :
    peek (encode cs) 0 = some '.' ∧ peek (encode cs) 1 = some '.' ↔
      ∃ rest, cs = '.' :: '.' :: rest := by
  constructor
  · rintro ⟨hfirst, hsecond⟩
    obtain ⟨ds, rfl⟩ := List.head?_eq_some_iff.mp ((peek_encode (by decide) cs).mp hfirst)
    rw [peek_one (by decide)] at hsecond
    obtain ⟨rest, rfl⟩ := List.head?_eq_some_iff.mp ((peek_encode (by decide) ds).mp hsecond)
    exact ⟨rest, rfl⟩
  · rintro ⟨rest, rfl⟩
    rw [peek_one (by decide)]
    exact ⟨(peek_encode (by decide) _).mpr rfl, (peek_encode (by decide) _).mpr rfl⟩

theorem scanMark_agrees {c : Char} (hc : c.toNat < 128) (h : source.toList = before ++ c :: cs)
    (hstring : c ≠ '"') (hstyled : c ≠ '`') (hname : c ≠ '$') (htarget : c ≠ '@')
    (hdigit : ¬ c.isDigit) (hword : ¬ isWordStart c) :
    Agrees (scanMark source (width before) c (encode cs))
      (Lexer.scanToken (width before) c cs) := by
  simp only [scanMark, Lexer.scanToken.eq_def, if_neg hstring, if_neg hstyled, if_neg hname,
    if_neg htarget, if_neg hdigit, if_neg hword]
  by_cases hdots : c = '.' ∧ peek (encode cs) 0 = some '.' ∧ peek (encode cs) 1 = some '.'
  · rw [if_pos hdots]
    obtain ⟨rfl, hpeek⟩ := hdots
    obtain ⟨rest, rfl⟩ := (peek_dots cs).mp hpeek
    rfl
  · rw [if_neg hdots]
    have hno (rest : List Char) (hc : c = '.') : cs ≠ '.' :: '.' :: rest :=
      fun hcs => hdots ⟨hc, (peek_dots cs).mpr ⟨rest, hcs⟩⟩
    cases markOf? c with
    | some m =>
        dsimp only
        split
        case h_1 => exact absurd rfl (hno _ rfl)
        case h_2 =>
          rw [emit, width_singleton hc]
          rfl
    | none =>
        dsimp only
        split
        case h_1 => exact absurd rfl (hno _ rfl)
        case h_2 => exact scanUnexpected_agrees h

theorem scanToken_high {c : Char} {b : UInt8} {bs : List UInt8} (hc : 128 ≤ c.toNat) (hb : High b)
    (h : source.toList = before ++ c :: cs) :
    Agrees (scanToken source (width before) b bs) (Lexer.scanToken (width before) c cs) := by
  have hne {d : Char} (hd : 128 ≤ d.toNat) : d ≠ '"' ∧ d ≠ '`' ∧ d ≠ '$' ∧ d ≠ '@' ∧ d ≠ '.' := by
    refine ⟨?_, ?_, ?_, ?_, ?_⟩ <;> exact ne_of_high hd (by decide)
  have hword : Plain isWordStart := fun d hd => plain_isWordChar d (isWordChar_of_isWordStart hd)
  have hbytes : scanToken source (width before) b bs = scanUnexpected source (width before) := by
    obtain ⟨h1, h2, h3, h4, h5⟩ := hne hb
    simp [scanToken, scanMark, h1, h2, h3, h4, h5, plain_isDigit.eq_false hb, hword.eq_false hb,
      markOf?_high hb]
  have hchars : Lexer.scanToken (width before) c cs =
      .error ⟨.unexpectedCharacter c, ⟨width before, width before + c.utf8Size⟩⟩ := by
    obtain ⟨h1, h2, h3, h4, h5⟩ := hne hc
    simp [Lexer.scanToken, h1, h2, h3, h4, h5, plain_isDigit.eq_false hc, hword.eq_false hc,
      markOf?_high hc]
  rw [hbytes, hchars]
  exact scanUnexpected_agrees h

theorem scanName_agrees (h : source.toList = before ++ '$' :: cs) :
    Agrees
      (if peek (encode cs) 0 = some '"' then
        scanLiteral source (width before) (width before + 1) '"' .varName ((encode cs).drop 1)
      else throw ⟨.quoteExpected, ⟨width before, width before + 1⟩⟩)
      (Lexer.scanToken (width before) '$' cs) := by
  by_cases hquote : cs.head? = some '"'
  · rw [if_pos ((peek_encode (by decide) cs).mpr hquote)]
    obtain ⟨ds, rfl⟩ := List.head?_eq_some_iff.mp hquote
    have hliteral := @scanLiteral_agrees source before ds ['$'] '"' (by decide) .varName h
    rw [width_append, width_singleton (by decide)] at hliteral
    obtain ⟨b, -, hbytes⟩ := @encode_cons_plain '"' (by decide) ds
    rw [hbytes]
    exact hliteral
  · rw [if_neg (mt (peek_encode (by decide) cs).mp hquote)]
    unfold Lexer.scanToken
    rw [if_neg (by decide), if_neg (by decide), if_pos rfl]
    split
    case h_1 => exact absurd rfl hquote
    case h_2 => rfl

theorem scanToken_agrees {c : Char} {b : UInt8} {bs : List UInt8}
    (h : source.toList = before ++ c :: cs) (hbytes : encode (c :: cs) = b :: bs) :
    Agrees (scanToken source (width before) b bs) (Lexer.scanToken (width before) c cs) := by
  obtain ⟨first, more, hfirst, -, ⟨hc, hb, rfl⟩ | ⟨hc, hb, -⟩⟩ := utf8EncodeChar_cases c
  case inr =>
    rw [encode_cons, hfirst, List.cons_append] at hbytes
    cases hbytes
    exact scanToken_high hc hb h
  obtain ⟨rfl, rfl⟩ : first = b ∧ encode cs = bs := by
    rw [encode_cons, hfirst, List.singleton_append] at hbytes
    exact List.cons.inj hbytes
  unfold scanToken
  rw [hb]
  by_cases hstring : c = '"'
  · subst hstring
    have hliteral := @scanLiteral_agrees source before cs [] '"' hc .string h
    rwa [List.append_nil] at hliteral
  by_cases hstyled : c = '`'
  · subst hstyled
    have hliteral := @scanLiteral_agrees source before cs [] '`' hc .styledText h
    rwa [List.append_nil] at hliteral
  by_cases hname : c = '$'
  · subst hname
    exact scanName_agrees h
  by_cases htarget : c = '@'
  · subst htarget
    exact scanTarget_agrees h
  simp only [if_neg hstring, if_neg hstyled, if_neg hname, if_neg htarget]
  rw [← hbytes]
  by_cases hdigit : c.isDigit
  · unfold Lexer.scanToken
    simp only [if_pos hdigit, if_neg hstring, if_neg hstyled, if_neg hname, if_neg htarget]
    exact scanNumber_agrees h
  by_cases hword : isWordStart c
  · unfold Lexer.scanToken
    simp only [if_neg hdigit, if_pos hword, if_neg hstring, if_neg hstyled, if_neg hname,
      if_neg htarget]
    exact scanWord_agrees h
  · rw [if_neg hdigit, if_neg hword]
    exact scanMark_agrees hc h hstring hstyled hname htarget hdigit hword

end

theorem scanAll_agrees {source : String} {m n : Nat} {before cs : List Char}
    (h : source.toList = before ++ cs) (hm : cs.length < m) (hn : cs.length < n) :
    (scanAll source m (width before)).run = some (Lexer.scanAll n (width before) cs) := by
  induction m generalizing n before cs with
  | zero => omega
  | succ m ih =>
      obtain _ | n := n
      · omega
      obtain ⟨gap, rest, rfl, -, hskip⟩ := skipLayout_gap (width before) cs
      have hdrop (before rest : List Char) (h : source.toList = before ++ rest) :
          (Text.utf8Bytes source).drop (width before) = encode rest := by
        rw [utf8Bytes_eq_encode, h, drop_encode]
      have hstart : skipLayout false (width before) ((Text.utf8Bytes source).drop (width before)) =
          width (before ++ gap) := by
        rw [hdrop before _ h, skipLayout_encode, hskip, width_append]
      rw [← List.append_assoc] at h
      rw [← width_append] at hskip
      rw [scanAll, Lexer.scanAll, hstart, hdrop _ rest h, hskip]
      cases rest with
      | nil => rfl
      | cons c rest =>
          obtain ⟨b, bs, hbytes⟩ : ∃ b bs, encode (c :: rest) = b :: bs := by
            obtain ⟨b, more, hfirst, -⟩ := utf8EncodeChar_cases c
            exact ⟨b, more ++ encode rest, by rw [encode_cons, hfirst, List.cons_append]⟩
          rw [hbytes]
          refine run_bind (scanToken_agrees h hbytes) ?_
          rintro ⟨lexeme, rest'⟩ hscan
          obtain ⟨w, hsplit, rfl⟩ := word_of_scanToken hskip hscan
          rw [hsplit] at h hm hn
          rw [← List.append_assoc] at h
          have hlt := w.length_lt rest'
          rw [List.length_append] at hm hn
          have hrest := ih h (show rest'.length < m by omega) (show rest'.length < n by omega)
          rw [width_append _ w.text] at hrest
          have hsame := congrArg some (congrFun Except.map_id
            (Lexer.scanAll n (width (before ++ gap) + width w.text) rest'))
          exact run_bind (hrest.trans hsame.symm) fun lexemes _ => rfl

/-- No slice is off a character boundary, and the bytes make the same tokens. -/
theorem lex_run (source : String) : (lex source).run = some (DiamondScript.lex source) := by
  have hlength : source.toList.length ≤ source.utf8ByteSize := by
    rw [← String.ofList_toList (s := source), utf8ByteSize_ofList, String.toList_ofList]
    exact length_le_width source.toList
  exact scanAll_agrees (List.nil_append _).symm (Nat.lt_succ_of_le hlength) (Nat.lt_succ_self _)

end ByteLexer

/-- The tokens account for every byte: a scan byte by byte never slices the source off a character
boundary and finds the same tokens, and these take up the whole text between layout. -/
theorem lex_accounts (source : String) :
    (ByteLexer.lex source).run = some (lex source) ∧
      ∀ lexemes, lex source = .ok lexemes → Accounts source lexemes :=
  ⟨ByteLexer.lex_run source, fun _ h => accounts_of_lex h⟩

/-- A literal with a backslash in front of a character of two bytes and what looks like a comment,
in front of a comment without a newline. -/
theorem lex_accounts_escape :
    ∃ lexemes, lex "\"\\é//\" +1.//." = .ok lexemes ∧
      lexemes.map Lexeme.span = [⟨0, 7⟩, ⟨8, 9⟩, ⟨9, 10⟩, ⟨10, 11⟩, ⟨14, 14⟩] ∧
      (ByteLexer.lex "\"\\é//\" +1.//.").run = some (.ok lexemes) ∧
      Accounts "\"\\é//\" +1.//." lexemes := by
  obtain ⟨lexemes, h, hspans⟩ : ∃ lexemes, lex "\"\\é//\" +1.//." = .ok lexemes ∧
      lexemes.map Lexeme.span = [⟨0, 7⟩, ⟨8, 9⟩, ⟨9, 10⟩, ⟨10, 11⟩, ⟨14, 14⟩] := ⟨_, rfl, rfl⟩
  obtain ⟨hrun, haccounts⟩ := lex_accounts "\"\\é//\" +1.//."
  exact ⟨lexemes, h, hspans, h ▸ hrun, haccounts lexemes h⟩

end DiamondScript
