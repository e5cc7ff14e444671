import DiamondScript.Json.Printer
import DiamondScript.Proofs.Decimals
import DiamondScript.Proofs.Spacing
import DiamondScript.Template.Item

namespace DiamondScript

namespace Layout

open Lexer (span_append)

def exponentOf : List Char → ℤ
  | 'e' :: '-' :: ds => -(Nat.ofDigitChars 10 ds 0 : ℤ)
  | 'e' :: _ :: ds => Nat.ofDigitChars 10 ds 0
  | _ => 0

/-- The decimal that a number without a sign shows. -/
def shown (cs : List Char) : Decimal :=
  let mantissa := cs.takeWhile (· ≠ 'e')
  let fraction := (mantissa.dropWhile (· ≠ '.')).tail
  ⟨Nat.ofDigitChars 10 (mantissa.takeWhile (· ≠ '.') ++ fraction) 0,
    exponentOf (cs.dropWhile (· ≠ 'e')) - fraction.length⟩

def isNumeral (c : Char) : Bool := c.isDigit || c = '.' || c = 'e' || c = '+' || c = '-'

/-- A number without a sign, and what it stands for. -/
structure Spells (cs : List Char) (v : ℚ) : Prop where
  starts : ∃ c ∈ cs.head?, c.isDigit
  numeral : ∀ c ∈ cs, isNumeral c
  value : (shown cs).value = v

inductive Ending : List Char → ℤ → Prop
  | none : Ending [] 0
  | plus {ds : List Char} (digits : ∀ c ∈ ds, c.isDigit) :
      Ending ('e' :: '+' :: ds) (Nat.ofDigitChars 10 ds 0)
  | minus {ds : List Char} (digits : ∀ c ∈ ds, c.isDigit) :
      Ending ('e' :: '-' :: ds) (-(Nat.ofDigitChars 10 ds 0 : ℤ))

theorem isNumeral_of_isDigit {c : Char} (h : c.isDigit) : isNumeral c := by
  simp [isNumeral, h]

section spells

variable {whole fraction tail : List Char} {k : ℤ}

theorem Ending.exponentOf_eq (h : Ending tail k) : exponentOf tail = k := by
  cases h with
  | none | minus => rfl
  | plus => simp [exponentOf]

theorem Ending.numeral (h : Ending tail k) : ∀ c ∈ tail, isNumeral c := by
  cases h with
  | none => exact List.forall_mem_nil _
  | plus digits | minus digits =>
      rw [List.forall_mem_cons, List.forall_mem_cons]
      exact ⟨rfl, rfl, fun c hc => isNumeral_of_isDigit (digits c hc)⟩

theorem Ending.head (h : Ending tail k) : ∀ c ∈ tail.head?, decide (c ≠ 'e') = false := by
  cases h with
  | none => exact fun _ hc => nomatch hc
  | plus | minus =>
      rintro _ ⟨⟩
      rfl

theorem ne_mark_of_isDigit {cs : List Char} (h : ∀ c ∈ cs, c.isDigit) {d : Char}
    (hd : d.isDigit = false) : ∀ c ∈ cs, decide (c ≠ d) = true := by
  intro c hc
  apply decide_eq_true
  rintro rfl
  rw [h c hc] at hd
  cases hd

variable (hwhole : ∀ c ∈ whole, c.isDigit) (hne : whole ≠ []) (htail : Ending tail k)

include hwhole hne

theorem head_isDigit (rest : List Char) : ∃ c ∈ (whole ++ rest).head?, c.isDigit := by
  obtain ⟨d, ds, rfl⟩ := List.exists_cons_of_ne_nil hne
  exact ⟨d, rfl, hwhole d List.mem_cons_self⟩

include htail

theorem spells_whole : Spells (whole ++ tail) (Nat.ofDigitChars 10 whole 0 * 10 ^ k) := by
  refine ⟨head_isDigit hwhole hne tail, ?_, ?_⟩
  · rw [List.forall_mem_append]
    exact ⟨fun c hc => isNumeral_of_isDigit (hwhole c hc), htail.numeral⟩
  · obtain ⟨htake, hdrop⟩ := span_append (ne_mark_of_isDigit hwhole rfl) htail.head
    have hpoint := ne_mark_of_isDigit (d := '.') hwhole rfl
    rw [shown, htake, hdrop, List.takeWhile_eq_self_iff.mpr hpoint,
      List.dropWhile_eq_nil_iff.mpr hpoint, htail.exponentOf_eq, Decimal.value]
    simp

theorem spells_point (hfraction : ∀ c ∈ fraction, c.isDigit) :
    Spells (whole ++ '.' :: (fraction ++ tail))
      (Nat.ofDigitChars 10 (whole ++ fraction) 0 * 10 ^ (k - fraction.length)) := by
  refine ⟨head_isDigit hwhole hne _, ?_, ?_⟩
  · rw [List.forall_mem_append, List.forall_mem_cons, List.forall_mem_append]
    exact ⟨fun c hc => isNumeral_of_isDigit (hwhole c hc), rfl,
      fun c hc => isNumeral_of_isDigit (hfraction c hc), htail.numeral⟩
  · have he : ∀ c ∈ whole ++ '.' :: fraction, decide (c ≠ 'e') = true := by
      rw [List.forall_mem_append, List.forall_mem_cons]
      exact ⟨ne_mark_of_isDigit hwhole rfl, rfl, ne_mark_of_isDigit hfraction rfl⟩
    have hpoint : ∀ c ∈ ('.' :: fraction).head?, decide (c ≠ '.') = false := by
      rintro _ ⟨⟩
      rfl
    obtain ⟨htake, hdrop⟩ := span_append he htail.head
    rw [List.append_assoc, List.cons_append] at htake hdrop
    obtain ⟨htake', hdrop'⟩ := span_append (ne_mark_of_isDigit hwhole rfl) hpoint
    rw [shown, htake, hdrop, htake', hdrop', htail.exponentOf_eq, Decimal.value]
    rfl

end spells

theorem isDigit_toDigits (n : ℕ) : ∀ c ∈ Nat.toDigits 10 n, c.isDigit :=
  fun _ hc => Nat.isDigit_of_mem_toDigits (by decide) (by decide) hc

theorem isDigit_zeros (n : ℕ) : ∀ c ∈ List.replicate n '0', c.isDigit := by
  intro c hc
  rw [List.eq_of_mem_replicate hc]
  rfl

theorem ofDigitChars_append_zeros (cs : List Char) (n : ℕ) :
    Nat.ofDigitChars 10 (cs ++ List.replicate n '0') 0 = Nat.ofDigitChars 10 cs 0 * 10 ^ n := by
  rw [Nat.ofDigitChars_append, Nat.ofDigitChars_replicate_zero, Nat.mul_comm]

theorem ofDigitChars_zeros_append (cs : List Char) (n : ℕ) :
    Nat.ofDigitChars 10 (List.replicate n '0' ++ cs) 0 = Nat.ofDigitChars 10 cs 0 := by
  rw [Nat.ofDigitChars_append, Nat.ofDigitChars_replicate_zero, Nat.mul_zero]

theorem ofDigitChars_toDigits (n : ℕ) : Nat.ofDigitChars 10 (Nat.toDigits 10 n) 0 = n :=
  Nat.ofDigitChars_ten_toDigits

theorem spells_digits {digits left right tail : List Char} {k : ℤ} {d : Decimal}
    (hsplit : left ++ right = digits) (hdigits : ∀ c ∈ digits, c.isDigit) (hne : left ≠ [])
    (hvalue : Nat.ofDigitChars 10 digits 0 = d.coefficient) (htail : Ending tail k)
    (hexponent : k - right.length = d.exponent) :
    Spells (left ++ '.' :: (right ++ tail)) d.value := by
  rw [← hsplit, List.forall_mem_append] at hdigits
  have h := spells_point hdigits.1 hne htail hdigits.2
  rw [hsplit, hvalue, hexponent] at h
  exact h

theorem spells_positionalText (l : Layout) (d : Decimal) :
    Spells (l.positionalText d).toList d.value := by
  have hdigits := isDigit_toDigits d.coefficient
  have hne : Nat.toDigits 10 d.coefficient ≠ [] := Nat.toDigits_ne_nil
  have hvalue := ofDigitChars_toDigits d.coefficient
  rw [positionalText, digitsOf, zeros, zeros]
  generalize Nat.toDigits 10 d.coefficient = digits at hdigits hne hvalue
  by_cases hexponent : 0 ≤ d.exponent
  · have hall : ∀ c ∈ digits ++ List.replicate d.exponent.toNat '0', c.isDigit :=
      List.forall_mem_append.mpr ⟨hdigits, isDigit_zeros _⟩
    have hwhole := ofDigitChars_append_zeros digits d.exponent.toNat
    have hshifted : d.value = d.coefficient * 10 ^ d.exponent.toNat := by
      rw [Decimal.value, ← zpow_natCast, Int.toNat_of_nonneg hexponent]
    rw [hvalue] at hwhole
    by_cases hpoint : l.pointZero
    · have hfraction := ofDigitChars_append_zeros
        (digits ++ List.replicate d.exponent.toNat '0') 1
      have h := spells_point hall (by simp [hne]) .none (isDigit_zeros 1)
      rw [hfraction, hwhole] at h
      have hone : ((d.coefficient * 10 ^ d.exponent.toNat * 10 ^ 1 : ℕ) : ℚ) *
          10 ^ ((0 : ℤ) - (List.replicate 1 '0').length) = d.value := by
        rw [hshifted]
        push_cast
        norm_num
        ring
      rw [hone] at h
      simpa [hexponent, hpoint] using h
    · have h := spells_whole hall (by simp [hne]) .none
      rw [hwhole] at h
      simpa [hexponent, hpoint, hshifted] using h
  · by_cases hwhole : 0 < (digits.length : ℤ) + d.exponent
    · have h := spells_digits (List.take_append_drop (digits.length + d.exponent).toNat digits)
        hdigits (by simp [hne]; omega) hvalue .none (by simp; omega)
      simpa [hexponent, hwhole] using h
    · have hall : ∀ c ∈ '0' :: (List.replicate (-(digits.length + d.exponent)).toNat '0' ++ digits),
          c.isDigit := List.forall_mem_cons.mpr
        ⟨rfl, List.forall_mem_append.mpr ⟨isDigit_zeros _, hdigits⟩⟩
      have hzeros := ofDigitChars_zeros_append digits ((-(digits.length + d.exponent)).toNat + 1)
      rw [List.replicate_succ, List.cons_append, hvalue] at hzeros
      have h := spells_digits List.singleton_append hall (by simp) hzeros .none (by simp; omega)
      simpa [hexponent, hwhole] using h

theorem ending_exponentText (l : Layout) (e : ℤ) : Ending (l.exponentText e).toList e := by
  have hdigits : ∀ c ∈ List.replicate (l.exponentWidth - (digitsOf e.natAbs).length) '0' ++
      Nat.toDigits 10 e.natAbs, c.isDigit :=
    List.forall_mem_append.mpr ⟨isDigit_zeros _, isDigit_toDigits _⟩
  have hvalue := ofDigitChars_zeros_append (Nat.toDigits 10 e.natAbs)
    (l.exponentWidth - (digitsOf e.natAbs).length)
  rw [ofDigitChars_toDigits] at hvalue
  rw [exponentText]
  by_cases he : e < 0
  · have h := Ending.minus hdigits
    rw [hvalue, show -(e.natAbs : ℤ) = e by omega] at h
    simpa [he, zeros, digitsOf] using h
  · have h := Ending.plus hdigits
    rw [hvalue, show (e.natAbs : ℤ) = e by omega] at h
    simpa [he, zeros, digitsOf] using h

theorem spells_scientificText (l : Layout) (d : Decimal) :
    Spells (l.scientificText d).toList d.value := by
  have hdigits := isDigit_toDigits d.coefficient
  have hne : Nat.toDigits 10 d.coefficient ≠ [] := Nat.toDigits_ne_nil
  have hvalue := ofDigitChars_toDigits d.coefficient
  rw [scientificText]
  generalize Nat.toDigits 10 d.coefficient = digits at hdigits hne hvalue
  obtain ⟨c, cs, rfl⟩ := List.exists_cons_of_ne_nil hne
  have htail := l.ending_exponentText ((c :: cs).length + d.exponent - 1)
  cases cs with
  | nil =>
      have h := spells_whole hdigits hne htail
      rw [hvalue, List.length_singleton, Nat.cast_one, add_sub_cancel_left] at h
      simpa [Decimal.value] using h
  | cons c' cs =>
      have h := spells_digits List.singleton_append hdigits (by simp) hvalue htail
        (by simp; omega)
      simpa using h

theorem spells_decimalText (l : Layout) (d : Decimal) :
    Spells (l.decimalText d).toList d.value := by
  rw [decimalText]
  split
  · exact l.spells_positionalText d
  · exact l.spells_scientificText d

variable {l : Layout} {x y : Binary64}

def body (l : Layout) (x : Binary64) : String :=
  if x.isInfinite then l.infinite
  else if x.isZero then l.positionalText ⟨0, 0⟩
  else l.decimalText (shortest l.tie x)

theorem text_eq (h : ¬ x.isNaN) : l.text x = (if x.negative then "-" else "") ++ l.body x := by
  rw [text, if_neg h, body]
  by_cases hinfinite : x.isInfinite
  · simp [hinfinite]
  · by_cases hzero : x.isZero <;> simp [hinfinite, hzero]

theorem finite_or_infinite (h : ¬ x.isNaN) :
    (x.isFinite ∧ ¬ x.isInfinite) ∨
      x.isInfinite ∧ x.magnitude.toNat = Binary64.infinitePattern := by
  simp only [Binary64.isNaN, Binary64.isFinite, Binary64.isInfinite, decide_eq_true_eq,
    beq_iff_eq] at h ⊢
  omega

theorem within_zero (h : x.isZero) : (Shortest.interval x).Within 0 := by
  have hmagnitude : x.magnitude.toNat = 0 := beq_iff_eq.mp h
  have hsignificand : x.significand = 0 := by
    rw [Binary64.significand, hmagnitude]
    rfl
  rw [Binary64.within_iff, Binary64.lowEnd, hsignificand]
  simp

/-- What is written of a finite number reads back to it. -/
theorem spells_body (h : x.isFinite) :
    ∃ v, Spells (l.body x).toList v ∧ (Shortest.interval x).Within v := by
  have hinfinite : ¬ x.isInfinite := by
    simp only [Binary64.isFinite, Binary64.isInfinite, decide_eq_true_eq, beq_iff_eq] at h ⊢
    omega
  rw [body, if_neg hinfinite]
  by_cases hzero : x.isZero
  · rw [if_pos hzero]
    have hvalue : (Decimal.mk 0 0).value = 0 := by simp [Decimal.value]
    have h := l.spells_positionalText ⟨0, 0⟩
    rw [hvalue] at h
    exact ⟨0, h, within_zero hzero⟩
  · rw [if_neg hzero]
    exact ⟨_, l.spells_decimalText _, Binary64.within_shortest l.tie x⟩

section injective

variable (hword : ∃ c ∈ l.infinite.toList.head?, isNumeral c = false)

include hword

theorem body_starts (h : ¬ x.isNaN) : ∃ c ∈ (l.body x).toList.head?,
    c ≠ '-' ∧ (isNumeral c ↔ x.isFinite) := by
  rcases finite_or_infinite h with ⟨hfinite, -⟩ | ⟨hinfinite, hpattern⟩
  · obtain ⟨v, hspells, -⟩ := spells_body (l := l) hfinite
    obtain ⟨c, hc, hdigit⟩ := hspells.starts
    refine ⟨c, hc, ?_, iff_of_true (isNumeral_of_isDigit hdigit) hfinite⟩
    rintro rfl
    cases hdigit
  · obtain ⟨c, hc, hnumeral⟩ := hword
    rw [body, if_pos hinfinite]
    refine ⟨c, hc, ?_, iff_of_false (by simp [hnumeral]) ?_⟩
    · rintro rfl
      cases hnumeral
    · simp [Binary64.isFinite, hpattern]

theorem sign_eq_of_text (hx : ¬ x.isNaN) (hy : ¬ y.isNaN) (h : l.text x = l.text y) :
    x.negative = y.negative ∧ l.body x = l.body y := by
  obtain ⟨c, hc, hsign, -⟩ := body_starts hword hx
  obtain ⟨c', hc', hsign', -⟩ := body_starts hword hy
  rw [text_eq hx, text_eq hy, ← String.toList_inj] at h
  cases hnx : x.negative <;> cases hny : y.negative <;> rw [hnx, hny] at h
  · exact ⟨rfl, by simpa [← String.toList_inj] using h⟩
  · have hhead : (l.body x).toList.head? = some '-' := by simpa using congrArg List.head? h
    rw [hhead] at hc
    exact absurd (Option.some.inj hc).symm hsign
  · have hhead : (l.body y).toList.head? = some '-' := by simpa using congrArg List.head? h.symm
    rw [hhead] at hc'
    exact absurd (Option.some.inj hc').symm hsign'
  · exact ⟨rfl, by simpa [← String.toList_inj] using h⟩

theorem magnitude_eq_of_body (hx : ¬ x.isNaN) (hy : ¬ y.isNaN) (h : l.body x = l.body y) :
    x.magnitude = y.magnitude := by
  have hfinite : x.isFinite ↔ y.isFinite := by
    obtain ⟨c, hc, -, hiff⟩ := body_starts hword hx
    obtain ⟨c', hc', -, hiff'⟩ := body_starts hword hy
    rw [h] at hc
    cases (Option.mem_unique hc hc')
    rw [← hiff, hiff']
  by_cases hboth : x.isFinite
  · obtain ⟨v, hv, hxv⟩ := spells_body (l := l) hboth
    obtain ⟨w, hw, hyw⟩ := spells_body (l := l) (hfinite.mp hboth)
    have hvalue : v = w := by rw [← hv.value, ← hw.value, h]
    subst hvalue
    exact Binary64.magnitude_eq_of_within hxv hyw
  · apply BitVec.eq_of_toNat_eq
    rw [((finite_or_infinite hx).resolve_left fun hl => hboth hl.1).2,
      ((finite_or_infinite hy).resolve_left fun hl => hboth (hfinite.mpr hl.1)).2]

theorem text_injective (hx : ¬ x.isNaN) (hy : ¬ y.isNaN) (h : l.text x = l.text y) : x = y := by
  obtain ⟨hsign, hbody⟩ := sign_eq_of_text hword hx hy h
  obtain ⟨nx, mx⟩ := x
  obtain ⟨ny, my⟩ := y
  exact congrArg₂ Binary64.mk hsign (magnitude_eq_of_body hword hx hy hbody)

end injective

theorem not_isNaN_of_isFinite (h : x.isFinite) : ¬ x.isNaN := by
  simp only [Binary64.isFinite, Binary64.isNaN, decide_eq_true_eq] at h ⊢
  omega

theorem numeral_text (h : x.isFinite) : ∀ c ∈ (l.text x).toList, isNumeral c := by
  obtain ⟨v, hspells, -⟩ := spells_body (l := l) h
  rw [text_eq (not_isNaN_of_isFinite h), String.toList_append, List.forall_mem_append]
  refine ⟨?_, hspells.numeral⟩
  split
  · exact List.forall_mem_singleton.mpr rfl
  · exact List.forall_mem_nil _

theorem marked_positionalText (hpoint : l.pointZero) (d : Decimal) :
    '.' ∈ (l.positionalText d).toList := by
  rw [positionalText, if_pos hpoint]
  split
  · simp
  · split <;> simp

theorem marked_exponentText (l : Layout) (e : ℤ) : 'e' ∈ (l.exponentText e).toList := by
  rw [exponentText]
  split <;> simp

theorem marked_decimalText (hpoint : l.pointZero) (d : Decimal) :
    ∃ c ∈ (l.decimalText d).toList, c = '.' ∨ c = 'e' := by
  rw [decimalText]
  split
  · exact ⟨'.', marked_positionalText hpoint d, .inl rfl⟩
  · refine ⟨'e', ?_, .inr rfl⟩
    rw [scientificText, String.toList_append]
    exact List.mem_append_right _ (l.marked_exponentText _)

/-- A number is never written like an integer. -/
theorem marked_text (hpoint : l.pointZero) (h : x.isFinite) :
    ∃ c ∈ (l.text x).toList, c = '.' ∨ c = 'e' := by
  have hbody : ∃ c ∈ (l.body x).toList, c = '.' ∨ c = 'e' := by
    have hfinite := (finite_or_infinite (not_isNaN_of_isFinite h)).resolve_right fun hr => by
      simp [Binary64.isFinite, hr.2] at h
    rw [body, if_neg hfinite.2]
    split
    · exact ⟨'.', marked_positionalText hpoint _, .inl rfl⟩
    · exact marked_decimalText hpoint _
  obtain ⟨c, hc, hmark⟩ := hbody
  rw [text_eq (not_isNaN_of_isFinite h), String.toList_append]
  exact ⟨c, List.mem_append_right _ hc, hmark⟩

end Layout

theorem eq_of_numberText {x y : Binary64} (hx : ¬ x.isNaN) (hy : ¬ y.isNaN)
    (h : numberText x = numberText y) : x = y :=
  Layout.text_injective ⟨'i', rfl, rfl⟩ hx hy h

theorem eq_of_floatText {x y : Binary64} (hx : x.isFinite) (hy : y.isFinite)
    (h : Json.floatText x = Json.floatText y) : x = y := by
  rw [Json.floatText, Json.floatText, if_pos hx, if_pos hy] at h
  exact Layout.text_injective ⟨'n', rfl, rfl⟩ (Layout.not_isNaN_of_isFinite hx)
    (Layout.not_isNaN_of_isFinite hy) h

end DiamondScript
