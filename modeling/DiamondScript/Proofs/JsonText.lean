import DiamondScript.Json.Printer
import DiamondScript.Json.Reader
import Mathlib.Algebra.Group.Int.Defs
import Mathlib.Data.List.Forall2
import Mathlib.Data.String.Basic

namespace DiamondScript.Json

/-- What may follow a value inside another one. -/
def Ends (rest : List Char) : Prop := ∀ c ∈ rest.head?, c = ',' ∨ c = ']' ∨ c = '}'

section strings

theorem hexValue_hexDigit : ∀ n < 16, hexValue (hexDigit n) = some n := by
  decide +kernel

theorem unicodeEscape_control {c : Char} (h : c.toNat < 32) (rest : List Char) :
    unicodeEscape ('0' :: '0' :: hexDigit (c.toNat / 16) :: hexDigit c.toNat :: rest) =
      some (c, rest) := by
  have hlow : hexDigit c.toNat = hexDigit (c.toNat % 16) := by
    rw [hexDigit, hexDigit, Nat.mod_mod]
  have hvalue : c.toNat / 16 * 16 + c.toNat % 16 = c.toNat := Nat.div_add_mod' _ _
  have hzero : hexValue '0' = some 0 := rfl
  simp [unicodeEscape, hexQuad, hlow, hzero, hexValue_hexDigit _ (show c.toNat / 16 < 16 by omega),
    hexValue_hexDigit _ (show c.toNat % 16 < 16 by omega), hvalue]
  omega

theorem stringBody_simple {e c : Char} (hu : e ≠ 'u') (h : simpleEscape e = some c) (n : Nat)
    (rest : List Char) :
    stringBody (n + 1) ('\\' :: e :: rest) =
      (stringBody n rest).map fun r => (c :: r.1, r.2) := by
  rw [stringBody]
  · rw [h]
    cases stringBody n rest <;> rfl
  · exact hu

theorem stringBody_plain {c : Char} (hquote : c ≠ '"') (hslash : c ≠ '\\') (h : ¬ c.toNat < 32)
    (n : Nat) (rest : List Char) :
    stringBody (n + 1) (c :: rest) = (stringBody n rest).map fun r => (c :: r.1, r.2) := by
  rw [stringBody]
  · rw [if_neg (by simp [h, hslash])]
    cases stringBody n rest <;> rfl
  · exact hquote
  · intro rest' hc
    exact absurd hc hslash
  · intro e rest' hc
    exact absurd hc hslash

theorem stringBody_escapeChar (n : Nat) (c : Char) (rest : List Char) :
    stringBody (n + 1) (escapeChar c ++ rest) =
      (stringBody n rest).map fun r => (c :: r.1, r.2) := by
  have hcode (k : Nat) (h : c.toNat = k) : c = Char.ofNat k := by
    rw [← h, Char.ofNat_toNat]
  unfold escapeChar
  split
  · next h => exact stringBody_simple (by decide) (by rw [h]; rfl) n rest
  split
  · next h => exact stringBody_simple (by decide) (by rw [h]; rfl) n rest
  split
  · next h => exact stringBody_simple (by decide) (by rw [h]; rfl) n rest
  split
  · next h => exact stringBody_simple (by decide) (by rw [h]; rfl) n rest
  split
  · next h => exact stringBody_simple (by decide) (by rw [h]; rfl) n rest
  split
  · next h => exact stringBody_simple (by decide) (by rw [hcode 8 h]; rfl) n rest
  split
  · next h => exact stringBody_simple (by decide) (by rw [hcode 12 h]; rfl) n rest
  split
  · next h =>
      simp only [List.cons_append, List.nil_append, stringBody, unicodeEscape_control h,
        Option.map_eq_bind]
      rfl
  · next hquote hslash _ _ _ _ _ h => exact stringBody_plain hquote hslash h n rest

theorem length_le_flatMap_escapeChar (cs : List Char) :
    cs.length ≤ (cs.flatMap escapeChar).length := by
  have hone (c : Char) : 1 ≤ (escapeChar c).length := by
    unfold escapeChar
    repeat' split
    all_goals simp
  induction cs with
  | nil => exact Nat.le_refl 0
  | cons c cs ih =>
      have := hone c
      rw [List.flatMap_cons, List.length_append, List.length_cons]
      omega

theorem stringBody_flatMap (cs : List Char) (rest : List Char) {n : Nat} (h : cs.length < n) :
    stringBody n (cs.flatMap escapeChar ++ '"' :: rest) = some (cs, rest) := by
  induction cs generalizing n with
  | nil =>
      obtain ⟨m, rfl⟩ := Nat.exists_eq_add_of_lt h
      simp [stringBody]
  | cons c cs ih =>
      obtain ⟨m, rfl⟩ : ∃ m, n = m + 1 := ⟨n - 1, by omega⟩
      rw [List.flatMap_cons, List.append_assoc, stringBody_escapeChar,
        ih (by simpa using h)]
      rfl

theorem scanString_quote (s : String) (rest : List Char) :
    scanString (s.toList.flatMap escapeChar ++ '"' :: rest) = some (s, rest) := by
  have hlength := length_le_flatMap_escapeChar s.toList
  rw [scanString, stringBody_flatMap _ _ (by rw [List.length_append]; omega)]
  simp

end strings

section numbers

def exponentSign : List Char → Bool × List Char
  | '+' :: rest => (false, rest)
  | '-' :: rest => (true, rest)
  | rest => (false, rest)

theorem scanExponent_cons (c : Char) (cs : List Char) :
    scanExponent (c :: cs) =
      if c = 'e' ∨ c = 'E' then
        if (digitRun (exponentSign cs).2).1.isEmpty then none
        else some (some ((exponentSign cs).1, (digitRun (exponentSign cs).2).1),
          (digitRun (exponentSign cs).2).2)
      else some (none, c :: cs) := by
  rw [scanExponent.eq_def]
  rfl

def numeralSign : List Char → Bool × List Char
  | '-' :: rest => (true, rest)
  | rest => (false, rest)

def scanUnsigned (negative : Bool) (cs : List Char) : Option (Numeral × List Char) :=
  match (digitRun cs).1 with
  | [] => none
  | '0' :: _ :: _ => none
  | _ => do
    let (fraction, rest) ← scanFraction (digitRun cs).2
    let (exponent, rest) ← scanExponent rest
    some (⟨negative, (digitRun cs).1, fraction, exponent⟩, rest)

theorem scanNumeral_eq (cs : List Char) :
    scanNumeral cs = scanUnsigned (numeralSign cs).1 (numeralSign cs).2 := by
  rw [scanNumeral.eq_def]
  rfl

def Stops (rest : List Char) : Prop :=
  ∀ c ∈ rest.head?, c.isDigit = false ∧ c ≠ '.' ∧ c ≠ 'e' ∧ c ≠ 'E' ∧ c ≠ '+' ∧ c ≠ '-'

theorem Ends.stops {rest : List Char} (h : Ends rest) : Stops rest := by
  intro c hc
  rcases h c hc with rfl | rfl | rfl <;> decide

variable {rest : List Char} (hrest : Stops rest)

include hrest

theorem ne_of_stops {c : Char} {cs : List Char} (h : rest = c :: cs) :
    c.isDigit = false ∧ c ≠ '.' ∧ c ≠ 'e' ∧ c ≠ 'E' ∧ c ≠ '+' ∧ c ≠ '-' :=
  hrest c (h ▸ rfl)

theorem digitRun_append (cs : List Char) :
    digitRun (cs ++ rest) = ((digitRun cs).1, (digitRun cs).2 ++ rest) := by
  induction cs with
  | nil =>
      cases h : rest with
      | nil => rfl
      | cons c cs => simp [digitRun, (ne_of_stops hrest h).1]
  | cons c cs ih =>
      simp only [digitRun, List.cons_append, Prod.mk.injEq, List.takeWhile_cons,
        List.dropWhile_cons] at ih ⊢
      cases hc : c.isDigit with
      | true => simp [ih]
      | false => simp

theorem scanFraction_append (cs : List Char) :
    scanFraction (cs ++ rest) = (scanFraction cs).map fun r => (r.1, r.2 ++ rest) := by
  cases cs with
  | nil =>
      cases h : rest with
      | nil => rfl
      | cons c cs =>
          rw [List.nil_append, scanFraction]
          · rfl
          · rintro rest' ⟨⟩
            exact (ne_of_stops hrest h).2.1 rfl
  | cons c cs =>
      by_cases hc : c = '.'
      · subst hc
        simp only [List.cons_append, scanFraction, digitRun_append hrest]
        split <;> rfl
      · rw [List.cons_append, scanFraction, scanFraction]
        · rfl
        · rintro _ ⟨⟩
          exact hc rfl
        · rintro _ ⟨⟩
          exact hc rfl

theorem exponentSign_append (cs : List Char) :
    exponentSign (cs ++ rest) = ((exponentSign cs).1, (exponentSign cs).2 ++ rest) := by
  cases cs with
  | nil =>
      cases h : rest with
      | nil => rfl
      | cons c cs =>
          obtain ⟨-, -, -, -, hplus, hminus⟩ := ne_of_stops hrest h
          rw [List.nil_append, exponentSign]
          · rfl
          · rintro _ ⟨⟩
            exact hplus rfl
          · rintro _ ⟨⟩
            exact hminus rfl
  | cons c cs =>
      rw [List.cons_append, exponentSign.eq_def, exponentSign.eq_def]
      split
      · next heq => cases heq; rfl
      · next heq => cases heq; rfl
      · next hplus hminus =>
          split
          · next heq => cases heq; exact absurd rfl (hplus _)
          · next heq => cases heq; exact absurd rfl (hminus _)
          · rfl

theorem scanExponent_append (cs : List Char) :
    scanExponent (cs ++ rest) = (scanExponent cs).map fun r => (r.1, r.2 ++ rest) := by
  cases cs with
  | nil =>
      cases h : rest with
      | nil => rfl
      | cons c cs =>
          obtain ⟨-, -, he, hE, -⟩ := ne_of_stops hrest h
          rw [List.nil_append, scanExponent_cons, if_neg (by simp [he, hE])]
          rfl
  | cons c cs =>
      rw [List.cons_append, scanExponent_cons, scanExponent_cons, exponentSign_append hrest,
        digitRun_append hrest]
      dsimp only
      split
      · split <;> rfl
      · rfl

theorem numeralSign_append (cs : List Char) :
    numeralSign (cs ++ rest) = ((numeralSign cs).1, (numeralSign cs).2 ++ rest) := by
  cases cs with
  | nil =>
      cases h : rest with
      | nil => rfl
      | cons c cs =>
          rw [List.nil_append, numeralSign]
          · rfl
          · rintro _ ⟨⟩
            exact (ne_of_stops hrest h).2.2.2.2.2 rfl
  | cons c cs =>
      by_cases hc : c = '-'
      · subst hc
        rfl
      · rw [List.cons_append, numeralSign, numeralSign]
        · rfl
        · rintro _ ⟨⟩
          exact hc rfl
        · rintro _ ⟨⟩
          exact hc rfl

theorem scanUnsigned_append (negative : Bool) (cs : List Char) :
    scanUnsigned negative (cs ++ rest) =
      (scanUnsigned negative cs).map fun r => (r.1, r.2 ++ rest) := by
  rw [scanUnsigned, scanUnsigned, digitRun_append hrest, scanFraction_append hrest]
  dsimp only
  split
  · rfl
  · rfl
  · cases hfraction : scanFraction (digitRun cs).2 with
    | none => rfl
    | some r =>
        change (scanExponent (r.2 ++ rest) >>= _) = Option.map _ (scanExponent r.2 >>= _)
        rw [scanExponent_append hrest]
        cases scanExponent r.2 <;> rfl

/-- What follows a number does not change how it is read. -/
theorem scanNumber_append (cs : List Char) :
    scanNumber (cs ++ rest) = (scanNumber cs).map fun r => (r.1, r.2 ++ rest) := by
  rw [scanNumber, scanNumber, scanNumeral_eq, scanNumeral_eq, numeralSign_append hrest,
    scanUnsigned_append hrest]
  cases scanUnsigned (numeralSign cs).1 (numeralSign cs).2 with
  | none => rfl
  | some r =>
      change (r.1.value >>= _) = Option.map _ (r.1.value >>= _)
      cases r.1.value <;> rfl

omit hrest

theorem le_ofDigitChars (cs : List Char) (s : Nat) : s ≤ Nat.ofDigitChars 10 cs s := by
  induction cs generalizing s with
  | nil => exact Nat.le_refl s
  | cons c cs ih =>
      rw [Nat.ofDigitChars_cons]
      exact Nat.le_trans (by omega) (ih _)

theorem absorb_eq {cs : List Char} {s : Nat} (h : Nat.ofDigitChars 10 cs s < Numeral.wordLimit) :
    Numeral.absorb s cs = (Nat.ofDigitChars 10 cs s, 0) := by
  induction cs generalizing s with
  | nil => rfl
  | cons c cs ih =>
      rw [Nat.ofDigitChars_cons, Nat.mul_comm] at h ⊢
      have hnext : s * 10 + (c.toNat - 48) < Numeral.wordLimit :=
        Nat.lt_of_le_of_lt (le_ofDigitChars cs _) h
      rw [Numeral.absorb, if_pos hnext]
      exact ih h

theorem toDigits_ne_zero_cons (n : Nat) (c : Char) (cs : List Char) :
    Nat.toDigits 10 n ≠ '0' :: c :: cs := by
  induction n using Nat.strongRecOn generalizing c cs with
  | ind n ih =>
      by_cases hn : n < 10
      · rw [Nat.toDigits_of_lt_base hn]
        simp
      · rw [Nat.toDigits_of_base_le (by decide) (Nat.not_lt.mp hn)]
        have hvalue : Nat.ofDigitChars 10 (Nat.toDigits 10 (n / 10)) 0 = n / 10 :=
          Nat.ofDigitChars_ten_toDigits
        match hdigits : Nat.toDigits 10 (n / 10) with
        | [] => exact absurd hdigits Nat.toDigits_ne_nil
        | [d] =>
            rintro ⟨⟩
            rw [hdigits] at hvalue
            have hzero : Nat.ofDigitChars 10 ['0'] 0 = 0 := rfl
            omega
        | d :: d' :: ds =>
            intro heq
            have hd : d = '0' := (List.cons.inj heq).1
            subst hd
            exact ih (n / 10) (by omega) d' ds hdigits

theorem digitRun_toDigits (n : Nat) : digitRun (Nat.toDigits 10 n) = (Nat.toDigits 10 n, []) := by
  have hdigits : ∀ c ∈ Nat.toDigits 10 n, c.isDigit :=
    fun c hc => Nat.isDigit_of_mem_toDigits (by decide) (by decide) hc
  generalize Nat.toDigits 10 n = ds at hdigits
  induction ds with
  | nil => rfl
  | cons d ds ih =>
      rw [List.forall_mem_cons] at hdigits
      have hrest := ih hdigits.2
      simp only [digitRun, Prod.mk.injEq, List.takeWhile_cons, List.dropWhile_cons, hdigits.1,
        if_true] at hrest ⊢
      rw [hrest.1, hrest.2]
      exact ⟨rfl, rfl⟩

theorem scanUnsigned_toDigits (negative : Bool) (n : Nat) :
    scanUnsigned negative (Nat.toDigits 10 n) =
      some (⟨negative, Nat.toDigits 10 n, none, none⟩, []) := by
  rw [scanUnsigned, digitRun_toDigits]
  dsimp only
  split
  · next h => exact absurd h Nat.toDigits_ne_nil
  · next h => exact absurd h (toDigits_ne_zero_cons n _ _)
  · rfl

theorem scanNumber_intText {n : Int} (hlow : -2 ^ 63 ≤ n) (hhigh : n < 2 ^ 64) :
    scanNumber (intText n) = some (.int n, []) := by
  have habsorb : Numeral.absorb 0 (Nat.toDigits 10 n.natAbs) = (n.natAbs, 0) := by
    rw [absorb_eq, Nat.ofDigitChars_ten_toDigits]
    rw [Nat.ofDigitChars_ten_toDigits]
    have : Numeral.wordLimit = 2 ^ 64 := rfl
    omega
  have hlimit : Nat.pow 2 63 = 2 ^ 63 := rfl
  rw [scanNumber, scanNumeral_eq, intText]
  by_cases hn : n < 0
  · rw [if_pos hn, numeralSign, scanUnsigned_toDigits]
    change (Numeral.value ⟨true, _, none, none⟩ >>= fun v => some (v, [])) = _
    rw [Numeral.value, habsorb]
    dsimp only
    rw [if_pos rfl, if_neg (by omega)]
    have hvalue : -(n.natAbs : Int) = n := by omega
    rw [hvalue]
    rfl
  · have hsign : numeralSign (Nat.toDigits 10 n.natAbs) = (false, Nat.toDigits 10 n.natAbs) := by
      rw [numeralSign]
      intro rest h
      have hminus := Nat.isDigit_of_mem_toDigits (by decide) (by decide)
        (h ▸ List.mem_cons_self : '-' ∈ Nat.toDigits 10 n.natAbs)
      exact absurd hminus (by decide)
    rw [if_neg hn, hsign, scanUnsigned_toDigits]
    change (Numeral.value ⟨false, _, none, none⟩ >>= fun v => some (v, [])) = _
    rw [Numeral.value, habsorb]
    have hvalue : (n.natAbs : Int) = n := by omega
    dsimp only
    rw [if_neg Bool.false_ne_true, hvalue]
    rfl

end numbers

section values

theorem skipBlank_cons {c : Char} (h : isBlank c = false) (cs : List Char) :
    skipBlank (c :: cs) = c :: cs := by
  rw [skipBlank, List.dropWhile_cons, h]
  rfl

def startsNumber (c : Char) : Bool := c = '-' || c.isDigit

theorem exists_of_scanNumber {cs : List Char} {r : Json × List Char}
    (h : scanNumber cs = some r) : ∃ c rest, cs = c :: rest ∧ startsNumber c := by
  cases cs with
  | nil => cases h
  | cons c cs =>
      refine ⟨c, cs, rfl, ?_⟩
      by_contra hc
      simp only [startsNumber, Bool.or_eq_true, decide_eq_true_eq, not_or, Bool.not_eq_true] at hc
      have hsign : numeralSign (c :: cs) = (false, c :: cs) := by
        rw [numeralSign]
        rintro _ ⟨⟩
        exact hc.1 rfl
      have hrun : (digitRun (c :: cs)).1 = [] := by simp [digitRun, hc.2]
      rw [scanNumber, scanNumeral_eq, hsign, scanUnsigned, hrun] at h
      cases h

theorem ne_of_startsNumber {c d : Char} (hc : startsNumber c) (hd : startsNumber d = false) :
    c ≠ d := by
  rintro rfl
  rw [hc] at hd
  cases hd

theorem isBlank_of_startsNumber {c : Char} (h : startsNumber c) : isBlank c = false := by
  have hne (d : Char) (hd : startsNumber d = false) : c ≠ d := ne_of_startsNumber h hd
  simp [isBlank, hne ' ' rfl, hne '\n' rfl, hne '\t' rfl, hne '\r' rfl]

theorem readValue_number {c : Char} (h : startsNumber c) (depth : Nat) (cs : List Char) :
    readValue depth (c :: cs) = scanNumber (c :: cs) := by
  rw [readValue.eq_def, skipBlank_cons (isBlank_of_startsNumber h)]
  split
  · next heq => exact absurd (List.cons.inj heq).1 (ne_of_startsNumber h rfl)
  · next heq => exact absurd (List.cons.inj heq).1 (ne_of_startsNumber h rfl)
  · next heq => exact absurd (List.cons.inj heq).1 (ne_of_startsNumber h rfl)
  · next heq => exact absurd (List.cons.inj heq).1 (ne_of_startsNumber h rfl)
  · next heq => exact absurd (List.cons.inj heq).1 (ne_of_startsNumber h rfl)
  · next heq => exact absurd (List.cons.inj heq).1 (ne_of_startsNumber h rfl)
  · rfl

section separated

variable {α : Type} {close : Char} {element : List Char → Option (α × List Char)}
  {shown : α → List Char}

/-- How an element is shown: its first character is neither a blank nor the closing one, and it is
read back with whatever follows it. -/
structure Shows (close : Char) (element : List Char → Option (α × List Char)) (cs : List Char)
    (a : α) : Prop where
  starts : ∃ c rest, cs = c :: rest ∧ isBlank c = false ∧ c ≠ close
  reads : ∀ rest, Ends rest → element (cs ++ rest) = some (a, rest)

theorem Shows.readSeparated {cs : List Char} {a : α} (h : Shows close element cs a)
    {tail : List Char} (htail : Ends tail) (n : Nat) :
    readSeparated close element (n + 1) true (cs ++ tail) =
        (readSeparated close element n false tail).map (fun r => (a :: r.1, r.2)) ∧
      (close ≠ ',' → ∀ gap : List Char, (∀ c ∈ gap, isBlank c) →
        readSeparated close element (n + 1) false (',' :: (gap ++ (cs ++ tail))) =
          (readSeparated close element n false tail).map fun r => (a :: r.1, r.2)) := by
  obtain ⟨c, cs', rfl, hblank, hclose⟩ := h.starts
  have hreads : element (c :: (cs' ++ tail)) = some (a, tail) := h.reads tail htail
  constructor
  · rw [Json.readSeparated, List.cons_append, skipBlank_cons hblank]
    cases hrest : Json.readSeparated close element n false tail <;>
      simp [elementStart, hclose, hreads, hrest]
  · intro hcomma gap hgap
    have hskip : skipBlank (gap ++ c :: (cs' ++ tail)) = c :: (cs' ++ tail) := by
      rw [skipBlank, List.dropWhile_append_of_pos hgap]
      exact skipBlank_cons hblank _
    rw [Json.readSeparated, skipBlank_cons rfl, List.cons_append]
    cases hrest : Json.readSeparated close element n false tail <;>
      simp [elementStart, hcomma.symm, hclose, hskip, hreads, hrest]

theorem readSeparated_close (hclose : isBlank close = false) (n : Nat) (first : Bool)
    (rest : List Char) :
    readSeparated close element (n + 1) first (close :: rest) = some ([], rest) := by
  rw [readSeparated, skipBlank_cons hclose]
  exact if_pos rfl

variable (hclose : close = ']' ∨ close = '}') {gap : List Char} {texts : List (List Char)}
  {items : List α}

include hclose

theorem ends_more (gap : List Char) (texts : List (List Char)) (rest : List Char) :
    Ends (texts.flatMap (fun text => ',' :: (gap ++ text)) ++ close :: rest) := by
  intro c hc
  cases texts with
  | nil =>
      cases hc
      exact .inr hclose
  | cons text texts =>
      cases hc
      exact .inl rfl

theorem readSeparated_more (hgap : ∀ c ∈ gap, isBlank c)
    (h : List.Forall₂ (Shows close element) texts items) (rest : List Char) {n : Nat}
    (hn : texts.length < n) :
    readSeparated close element n false
      (texts.flatMap (fun text => ',' :: (gap ++ text)) ++ close :: rest) =
        some (items, rest) := by
  have hblank : isBlank close = false := by rcases hclose with rfl | rfl <;> rfl
  have hcomma : close ≠ ',' := by rcases hclose with rfl | rfl <;> decide
  obtain ⟨m, rfl⟩ : ∃ m, n = m + 1 := ⟨n - 1, by omega⟩
  induction h generalizing m with
  | nil => exact readSeparated_close hblank m false rest
  | @cons text a texts items head _ ih =>
      rw [List.length_cons] at hn
      obtain ⟨k, rfl⟩ : ∃ k, m = k + 1 := ⟨m - 1, by omega⟩
      rw [List.flatMap_cons, List.cons_append, List.cons_append, List.append_assoc,
        List.append_assoc]
      rw [(head.readSeparated (ends_more hclose gap texts rest) _).2 hcomma gap hgap,
        ih k (by omega)]
      rfl

omit hclose in
theorem length_le_more (gap : List Char) (texts : List (List Char)) :
    texts.length ≤ (texts.flatMap fun text => ',' :: (gap ++ text)).length := by
  induction texts with
  | nil => exact Nat.le_refl 0
  | cons text texts ih =>
      rw [List.flatMap_cons, List.length_append, List.length_cons, List.length_cons]
      omega

/-- Elements with commas between them, and the same blanks behind each comma, are read up to the
closing character. -/
theorem readSeparated_texts (hgap : ∀ c ∈ gap, isBlank c) {text : List Char} {a : α}
    (h : List.Forall₂ (Shows close element) (text :: texts) (a :: items)) (rest : List Char) :
    let all := text ++ (texts.flatMap (fun text => ',' :: (gap ++ text)) ++ close :: rest)
    readSeparated close element (all.length + 1) true all = some (a :: items, rest) := by
  intro all
  obtain ⟨hfirst, hmore⟩ := List.forall₂_cons.mp h
  have hlength : texts.length < all.length := by
    have := length_le_more gap texts
    simp only [all, List.length_append, List.length_cons]
    omega
  rw [(hfirst.readSeparated (ends_more hclose gap texts rest) _).1,
    readSeparated_more hclose hgap hmore rest hlength]
  rfl

theorem readSeparated_first {a : α} (h : ∀ b ∈ a :: items, Shows close element (shown b) b)
    (rest : List Char) :
    let text := shown a ++ (items.flatMap (fun b => ',' :: shown b) ++ close :: rest)
    readSeparated close element (text.length + 1) true text = some (a :: items, rest) := by
  have hshows : List.Forall₂ (Shows close element) ((a :: items).map shown) (a :: items) := by
    rw [List.forall₂_map_left_iff, List.forall₂_same]
    exact h
  have hread := readSeparated_texts hclose (List.forall_mem_nil _) hshows rest
  rw [List.flatMap_map] at hread
  exact hread

end separated

theorem readValue_quote (depth : Nat) (rest : List Char) :
    readValue depth ('"' :: rest) = (scanString rest).map fun r => (.str r.1, r.2) := by
  rw [readValue.eq_def]
  rfl

theorem readValue_bracket (depth : Nat) (rest : List Char) :
    readValue (depth + 1) ('[' :: rest) =
      (readSeparated ']' (readValue depth) (rest.length + 1) true rest).map
        fun r => (.arr r.1, r.2) := by
  rw [readValue.eq_def]
  rfl

theorem readValue_brace (depth : Nat) (rest : List Char) :
    readValue (depth + 1) ('{' :: rest) =
      (readSeparated '}' (readField (readValue depth)) (rest.length + 1) true rest).map
        fun r => (object r.1, r.2) := by
  rw [readValue.eq_def]
  rfl

mutual

def depth : Json → Nat
  | .arr items => depthItems items + 1
  | .obj fields => depthFields fields + 1
  | .null | .bool _ | .int _ | .float _ | .str _ => 0

def depthItems : List Json → Nat
  | [] => 0
  | v :: rest => max v.depth (depthItems rest)

def depthFields : List (String × Json) → Nat
  | [] => 0
  | (_, v) :: rest => max v.depth (depthFields rest)

end

mutual

def floats : Json → List Binary64
  | .float x => [x]
  | .arr items => floatsItems items
  | .obj fields => floatsFields fields
  | .null | .bool _ | .int _ | .str _ => []

def floatsItems : List Json → List Binary64
  | [] => []
  | v :: rest => v.floats ++ floatsItems rest

def floatsFields : List (String × Json) → List Binary64
  | [] => []
  | (_, v) :: rest => v.floats ++ floatsFields rest

end

/-- Whether fields stand in the order of their names, each name once. -/
def Ordered (fields : List (String × Json)) : Prop := fields.Pairwise fun f g => f.1 < g.1

mutual

/-- Whether integers have 64 bits, signed or unsigned, and fields are ordered throughout. -/
def Proper : Json → Prop
  | .int n => -2 ^ 63 ≤ n ∧ n < 2 ^ 64
  | .arr items => ProperItems items
  | .obj fields => Ordered fields ∧ ProperFields fields
  | .null | .bool _ | .float _ | .str _ => True

def ProperItems : List Json → Prop
  | [] => True
  | v :: rest => v.Proper ∧ ProperItems rest

def ProperFields : List (String × Json) → Prop
  | [] => True
  | (_, v) :: rest => v.Proper ∧ ProperFields rest

end

/-- Whether the text of a float is read as that float. -/
def Kept (x : Binary64) : Prop := scanNumber (floatText x).toList = some (.float x, [])

def onlyFloat? : Option (Json × List Char) → Option Binary64
  | some (.float x, []) => some x
  | _ => none

theorem kept_iff {x : Binary64} :
    Kept x ↔ onlyFloat? (scanNumber (floatText x).toList) = some x := by
  unfold Kept onlyFloat?
  split
  · next y h => simp [h]
  · next h =>
      simp only [reduceCtorEq, iff_false]
      exact h x

instance : DecidablePred Kept := fun _ => decidable_of_iff _ kept_iff.symm

theorem depth_le_depthItems {v : Json} {items : List Json} (h : v ∈ items) :
    v.depth ≤ depthItems items := by
  induction h with
  | head rest => exact Nat.le_max_left _ _
  | tail w _ ih => exact Nat.le_trans ih (Nat.le_max_right _ _)

theorem depth_le_depthFields {f : String × Json} {fields : List (String × Json)}
    (h : f ∈ fields) : f.2.depth ≤ depthFields fields := by
  induction h with
  | head rest => exact Nat.le_max_left _ _
  | tail g _ ih => exact Nat.le_trans ih (Nat.le_max_right _ _)

/-- The text of a value is read back, and starts no later element or closing bracket. -/
structure Returns (v : Json) : Prop where
  starts : ∃ c rest, v.compact = c :: rest ∧ isBlank c = false ∧ c ≠ ']' ∧ c ≠ '}'
  reads : ∀ {depth : Nat} {rest : List Char}, v.depth ≤ depth → Ends rest →
    readValue depth (v.compact ++ rest) = some (v, rest)

theorem returns_number {v : Json} (h : scanNumber v.compact = some (v, [])) : Returns v := by
  obtain ⟨c, cs, hcs, hc⟩ := exists_of_scanNumber h
  refine ⟨⟨c, cs, hcs, isBlank_of_startsNumber hc, ne_of_startsNumber hc rfl,
    ne_of_startsNumber hc rfl⟩, fun {depth rest} _ hrest => ?_⟩
  rw [hcs, List.cons_append, readValue_number hc, ← List.cons_append, ← hcs,
    scanNumber_append hrest.stops, h]
  rfl

theorem returns_null : Returns .null := by
  refine ⟨⟨'n', _, rfl, rfl, by decide, by decide⟩, fun _ _ => ?_⟩
  rw [readValue.eq_def]
  rfl

theorem returns_bool (b : Bool) : Returns (.bool b) := by
  cases b with
  | false =>
      refine ⟨⟨'f', _, rfl, rfl, by decide, by decide⟩, fun _ _ => ?_⟩
      rw [readValue.eq_def]
      rfl
  | true =>
      refine ⟨⟨'t', _, rfl, rfl, by decide, by decide⟩, fun _ _ => ?_⟩
      rw [readValue.eq_def]
      rfl

theorem returns_str (s : String) : Returns (.str s) := by
  refine ⟨⟨'"', _, rfl, rfl, by decide, by decide⟩, fun {depth rest} _ _ => ?_⟩
  have htext : (Json.str s).compact ++ rest =
      '"' :: (s.toList.flatMap escapeChar ++ '"' :: rest) := by
    simp [compact, scalar, quote]
  rw [htext, readValue_quote, scanString_quote]
  rfl

theorem compactItems_cons (v : Json) (rest : List Json) :
    compactItems (v :: rest) = v.compact ++ rest.flatMap fun w => ',' :: w.compact := by
  induction rest generalizing v with
  | nil => simp [compactItems]
  | cons w rest ih => rw [compactItems, ih, List.flatMap_cons, List.cons_append]

theorem returns_arr {items : List Json} (h : ∀ v ∈ items, Returns v) : Returns (.arr items) := by
  refine ⟨⟨'[', _, rfl, rfl, by decide, by decide⟩, fun {depth rest} hdepth _ => ?_⟩
  obtain ⟨k, rfl⟩ : ∃ k, depth = k + 1 := ⟨depth - 1, by rw [Json.depth] at hdepth; omega⟩
  have hshows : ∀ v ∈ items, Shows ']' (readValue k) v.compact v := by
    intro v hv
    obtain ⟨c, cs, hcs, hblank, hbracket, -⟩ := (h v hv).starts
    have hk : v.depth ≤ k := by
      have := depth_le_depthItems hv
      rw [Json.depth] at hdepth
      omega
    exact ⟨⟨c, cs, hcs, hblank, hbracket⟩, fun rest hrest => (h v hv).reads hk hrest⟩
  have hread : readSeparated ']' (readValue k) ((compactItems items ++ ']' :: rest).length + 1) true
      (compactItems items ++ ']' :: rest) = some (items, rest) := by
    cases items with
    | nil => exact readSeparated_close rfl _ true rest
    | cons v items =>
        rw [compactItems_cons, List.append_assoc]
        exact readSeparated_first (.inl rfl) hshows rest
  have htext : (Json.arr items).compact ++ rest = '[' :: (compactItems items ++ ']' :: rest) := by
    simp [compact]
  rw [htext, readValue_bracket, hread]
  rfl

def fieldText (f : String × Json) : List Char := quote f.1 ++ ':' :: f.2.compact

theorem compactFields_cons (f : String × Json) (rest : List (String × Json)) :
    compactFields (f :: rest) = fieldText f ++ rest.flatMap fun g => ',' :: fieldText g := by
  induction rest generalizing f with
  | nil => simp [compactFields, fieldText]
  | cons g rest ih =>
      rw [compactFields, ih, List.flatMap_cons]
      simp [fieldText]

theorem readField_fieldText {f : String × Json} (h : Returns f.2) {depth : Nat}
    (hdepth : f.2.depth ≤ depth) {rest : List Char} (hrest : Ends rest) :
    readField (readValue depth) (fieldText f ++ rest) = some (f, rest) := by
  have htext : fieldText f ++ rest = '"' :: (f.1.toList.flatMap escapeChar ++
      '"' :: ':' :: (f.2.compact ++ rest)) := by
    simp [fieldText, quote]
  have hcolon (cs : List Char) : afterColon (':' :: cs) = some cs := rfl
  rw [htext, readField]
  simp only [scanString_quote, hcolon, h.reads hdepth hrest, Option.bind_eq_bind,
    Option.bind_some]

theorem insertField_last {fields : List (String × Json)} {name : String} {value : Json}
    (h : ∀ f ∈ fields, f.1 < name) :
    insertField name value fields = fields ++ [(name, value)] := by
  induction fields with
  | nil => rfl
  | cons f fields ih =>
      rw [List.forall_mem_cons] at h
      rw [insertField, if_neg (lt_asymm h.1), if_neg h.1.ne', ih h.2, List.cons_append]

theorem object_of_ordered {fields : List (String × Json)} (h : Ordered fields) :
    object fields = .obj fields := by
  have hfold (done : List (String × Json)) : ∀ rest : List (String × Json),
      Ordered (done ++ rest) →
        rest.foldl (fun sorted (f : String × Json) => insertField f.1 f.2 sorted) done =
          done ++ rest := by
    intro rest
    induction rest generalizing done with
    | nil => simp
    | cons f rest ih =>
        intro hordered
        have hlast : ∀ g ∈ done, g.1 < f.1 :=
          fun g hg => (List.pairwise_append.mp hordered).2.2 g hg f List.mem_cons_self
        rw [List.foldl_cons, insertField_last hlast, ih _ (by simpa using hordered)]
        simp
  exact congrArg Json.obj (hfold [] fields h)

/-- Fields in any order are read; what comes back has them sorted. -/
theorem readValue_fields {fields : List (String × Json)} (h : ∀ f ∈ fields, Returns f.2)
    {depth : Nat} (hdepth : (Json.obj fields).depth ≤ depth) (rest : List Char) :
    readValue depth ((Json.obj fields).compact ++ rest) = some (object fields, rest) := by
  obtain ⟨k, rfl⟩ : ∃ k, depth = k + 1 := ⟨depth - 1, by rw [Json.depth] at hdepth; omega⟩
  have hshows : ∀ f ∈ fields, Shows '}' (readField (readValue k)) (fieldText f) f := by
    intro f hf
    have hk : f.2.depth ≤ k := by
      have := depth_le_depthFields hf
      rw [Json.depth] at hdepth
      omega
    exact ⟨⟨'"', _, rfl, rfl, by decide⟩, fun rest hrest => readField_fieldText (h f hf) hk hrest⟩
  have hread : readSeparated '}' (readField (readValue k))
      ((compactFields fields ++ '}' :: rest).length + 1) true
      (compactFields fields ++ '}' :: rest) = some (fields, rest) := by
    cases fields with
    | nil => exact readSeparated_close rfl _ true rest
    | cons f fields =>
        rw [compactFields_cons, List.append_assoc]
        exact readSeparated_first (.inr rfl) hshows rest
  have htext :
      (Json.obj fields).compact ++ rest = '{' :: (compactFields fields ++ '}' :: rest) := by
    simp [compact]
  rw [htext, readValue_brace, hread, Option.map_some]

theorem returns_obj {fields : List (String × Json)} (hordered : Ordered fields)
    (h : ∀ f ∈ fields, Returns f.2) : Returns (.obj fields) := by
  refine ⟨⟨'{', _, rfl, rfl, by decide, by decide⟩, fun {depth rest} hdepth _ => ?_⟩
  rw [readValue_fields h hdepth, object_of_ordered hordered]

mutual

theorem returns : ∀ v : Json, v.Proper → (∀ x ∈ v.floats, Kept x) → Returns v
  | .null, _, _ => returns_null
  | .bool b, _, _ => returns_bool b
  | .int _, h, _ => returns_number (scanNumber_intText h.1 h.2)
  | .float x, _, hx => returns_number (hx x List.mem_cons_self)
  | .str s, _, _ => returns_str s
  | .arr items, h, hx => returns_arr (returns_items items h hx)
  | .obj fields, h, hx => returns_obj h.1 (returns_fields fields h.2 hx)

theorem returns_items : ∀ items : List Json, ProperItems items →
    (∀ x ∈ floatsItems items, Kept x) → ∀ v ∈ items, Returns v
  | [], _, _ => List.forall_mem_nil _
  | v :: rest, h, hx => by
      rw [floatsItems, List.forall_mem_append] at hx
      exact List.forall_mem_cons.mpr ⟨returns v h.1 hx.1, returns_items rest h.2 hx.2⟩

theorem returns_fields : ∀ fields : List (String × Json), ProperFields fields →
    (∀ x ∈ floatsFields fields, Kept x) → ∀ f ∈ fields, Returns f.2
  | [], _, _ => List.forall_mem_nil _
  | (_, v) :: rest, h, hx => by
      rw [floatsFields, List.forall_mem_append] at hx
      exact List.forall_mem_cons.mpr ⟨returns v h.1 hx.1, returns_fields rest h.2 hx.2⟩

end

theorem parse?_compactText {v : Json} (h : v.Proper) (hdepth : v.depth ≤ maxDepth)
    (hfloats : ∀ x ∈ v.floats, Kept x) : parse? v.compactText = some v := by
  have hread := (returns v h hfloats).reads hdepth (show Ends [] from nofun)
  rw [List.append_nil] at hread
  rw [parse?, compactText, String.toList_ofList, hread]
  rfl

end values

end DiamondScript.Json
