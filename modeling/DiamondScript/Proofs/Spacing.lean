import DiamondScript.Language.Lexer
import DiamondScript.Proofs.Outcome
import Mathlib.Data.List.TakeWhile

namespace DiamondScript

namespace Lexer

theorem width_cons (c : Char) (cs : List Char) : width (c :: cs) = c.utf8Size + width cs := by
  have h (n : Nat) : cs.foldl (fun n c => n + c.utf8Size) n = n + width cs := by
    unfold width
    induction cs generalizing n with
    | nil => rfl
    | cons d ds ih =>
        rw [List.foldl_cons, List.foldl_cons, ih, ih (0 + d.utf8Size)]
        omega
  rw [width, List.foldl_cons, h, Nat.zero_add]

theorem width_append (as bs : List Char) : width (as ++ bs) = width as + width bs := by
  induction as with
  | nil => rw [List.nil_append, show width [] = 0 from rfl, Nat.zero_add]
  | cons a as ih => rw [List.cons_append, width_cons, width_cons, ih, Nat.add_assoc]

/-- The characters that start behind the first `n` bytes. -/
def afterBytes : Nat → List Char → List Char
  | _, [] => []
  | n, c :: cs => if n = 0 then c :: cs else afterBytes (n - c.utf8Size) cs

def inBytes : Nat → List Char → List Char
  | _, [] => []
  | n, c :: cs => if n = 0 then [] else c :: inBytes (n - c.utf8Size) cs

theorem afterBytes_width (as bs : List Char) : afterBytes (width as) (as ++ bs) = bs := by
  induction as with
  | nil => cases bs <;> rfl
  | cons a as ih =>
      have hpos := a.utf8Size_pos
      rw [List.cons_append, width_cons, afterBytes, if_neg (by omega), Nat.add_sub_cancel_left, ih]

theorem inBytes_width (as bs : List Char) : inBytes (width as) (as ++ bs) = as := by
  induction as with
  | nil => cases bs <;> rfl
  | cons a as ih =>
      have hpos := a.utf8Size_pos
      rw [List.cons_append, width_cons, inBytes, if_neg (by omega), Nat.add_sub_cancel_left, ih]

end Lexer

open Lexer

def Span.text (source : List Char) (span : Span) : List Char :=
  inBytes (span.stop - span.start) (afterBytes span.start source)

theorem Span.text_eq (before text after : List Char) :
    Span.text (before ++ (text ++ after)) ⟨width before, width before + width text⟩ = text := by
  rw [Span.text, afterBytes_width, Nat.add_sub_cancel_left, inBytes_width]

/-- The texts of the tokens, without the end of file, which comes last. -/
def tokenTexts (source : List Char) (lexemes : List Lexeme) : List (List Char) :=
  lexemes.dropLast.map fun l => l.span.text source

namespace Lexer

/-- Blanks and comments, each comment closed by a newline. -/
inductive Layout : List Char → Prop
  | nil : Layout []
  | blank {c : Char} {cs : List Char} (blank : isBlank c) (rest : Layout cs) : Layout (c :: cs)
  | comment {body cs : List Char} (inline : '\n' ∉ body) (rest : Layout cs) :
      Layout ('/' :: '/' :: (body ++ '\n' :: cs))

inductive Separator : List Char → Prop
  | mk {c : Char} {cs : List Char} (blank : isBlank c) (rest : Layout cs) : Separator (c :: cs)

/-- At the very end, a comment needs no newline. -/
inductive Remark : List Char → Prop
  | none : Remark []
  | comment {body : List Char} (inline : '\n' ∉ body) : Remark ('/' :: '/' :: body)

inductive Spaced : List (List Char) → List Char → Prop
  | stop : Spaced [] []
  | close {sep remark : List Char} (gap : Separator sep) (last : Remark remark) :
      Spaced [] (sep ++ remark)
  | next {sep text : List Char} {texts : List (List Char)} {cs : List Char} (gap : Separator sep)
      (rest : Spaced texts cs) : Spaced (text :: texts) (sep ++ (text ++ cs))

/-- Texts in order with any layout in front of the first and separators between them. -/
inductive LaidOut : List (List Char) → List Char → Prop
  | empty {lead remark : List Char} (front : Layout lead) (last : Remark remark) :
      LaidOut [] (lead ++ remark)
  | first {lead text : List Char} {texts : List (List Char)} {cs : List Char}
      (front : Layout lead) (rest : Spaced texts cs) :
      LaidOut (text :: texts) (lead ++ (text ++ cs))

/-- No token goes on into what follows: it is a blank or the end. -/
def Breaks : List Char → Prop
  | [] => True
  | c :: _ => isBlank c

theorem Separator.layout {sep : List Char} (h : Separator sep) : Layout sep := by
  obtain ⟨hblank, hrest⟩ := h
  exact .blank hblank hrest

theorem Separator.breaks {sep : List Char} (h : Separator sep) (cs : List Char) :
    Breaks (sep ++ cs) := by
  obtain ⟨hblank, -⟩ := h
  exact hblank

theorem Spaced.breaks {texts : List (List Char)} {cs : List Char} (h : Spaced texts cs) :
    Breaks cs := by
  cases h with
  | stop => trivial
  | close gap | next gap => exact gap.breaks _

theorem Spaced.laidOut {texts : List (List Char)} {cs : List Char} (h : Spaced texts cs) :
    LaidOut texts cs := by
  cases h with
  | stop => exact .empty .nil .none
  | close gap last => exact .empty gap.layout last
  | next gap rest => exact .first gap.layout rest

theorem isBlank_iff {c : Char} : isBlank c ↔ c = ' ' ∨ c = '\t' ∨ c = '\r' ∨ c = '\n' := by
  simp [isBlank, or_assoc]

theorem not_isDigit_of_isBlank {c : Char} (h : isBlank c) : c.isDigit = false := by
  rcases isBlank_iff.mp h with rfl | rfl | rfl | rfl <;> rfl

theorem not_isWordChar_of_isBlank {c : Char} (h : isBlank c) : isWordChar c = false := by
  rcases isBlank_iff.mp h with rfl | rfl | rfl | rfl <;> rfl

theorem utf8Size_of_isBlank {c : Char} (h : isBlank c) : c.utf8Size = 1 := by
  rcases isBlank_iff.mp h with rfl | rfl | rfl | rfl <;> rfl

theorem Breaks.head_ne {rest : List Char} (h : Breaks rest) {c : Char} (hc : isBlank c = false) :
    rest.head? ≠ some c := by
  cases rest with
  | nil => simp
  | cons d ds =>
      rintro ⟨⟩
      rw [Breaks, hc] at h
      cases h

theorem span_append {p : Char → Bool} {text rest : List Char} (htext : ∀ c ∈ text, p c)
    (hrest : ∀ c ∈ rest.head?, p c = false) :
    (text ++ rest).takeWhile p = text ∧ (text ++ rest).dropWhile p = rest := by
  rw [List.takeWhile_append_of_pos htext, List.dropWhile_append_of_pos htext]
  cases rest with
  | nil => simp
  | cons c cs =>
      have hc : ¬ p c = true := by simp [hrest c rfl]
      rw [List.takeWhile_cons_of_neg hc, List.dropWhile_cons_of_neg hc, List.append_nil]
      exact ⟨rfl, rfl⟩

section

variable {p : Char → Bool} (hp : ∀ c, isBlank c → p c = false)

include hp

theorem takeWhile_breaks {word rest : List Char} (hword : ∀ c ∈ word, p c) (h : Breaks rest) :
    (word ++ rest).takeWhile p = word := by
  rw [List.takeWhile_append_of_pos hword]
  cases rest with
  | nil => rw [List.takeWhile_nil, List.append_nil]
  | cons c cs => rw [List.takeWhile_cons_of_neg (by simp [hp c h]), List.append_nil]

theorem dropWhile_breaks {word rest : List Char} (hword : ∀ c ∈ word, p c) (h : Breaks rest) :
    (word ++ rest).dropWhile p = rest := by
  rw [List.dropWhile_append_of_pos hword]
  cases rest with
  | nil => rfl
  | cons c cs => rw [List.dropWhile_cons_of_neg (by simp [hp c h])]

end

/-- What a scanner accepts behind `lead` is a text that it accepts in front of any break as
well, with the same token. -/
def Local (lead : List Char) (scan : Nat → List Char → Scan) : Prop :=
  ∀ ⦃pos cs lexeme rest⦄, scan pos cs = .ok (lexeme, rest) → ∃ text, cs = text ++ rest ∧
    lexeme.span = ⟨pos, pos + width (lead ++ text)⟩ ∧
    ∀ pos' rest', Breaks rest' →
      scan pos' (text ++ rest') = emit pos' lexeme.token (lead ++ text) rest'

theorem scanQuoted_closed {quote : Char} {cs body rest : List Char}
    (h : scanQuoted quote cs = .closed body rest) :
    cs = body ++ quote :: rest ∧
      ∀ rest', scanQuoted quote (body ++ quote :: rest') = .closed body rest' := by
  have hquote (rest' : List Char) : scanQuoted quote (quote :: rest') = .closed [] rest' := by
    cases rest' <;> simp [scanQuoted]
  fun_induction scanQuoted quote cs generalizing body with
  | case1 | case3 | case4 | case6 => cases h
  | case2 | case5 =>
      cases h
      exact ⟨rfl, hquote⟩
  | case7 c d cs hc hn hescape ih =>
      cases hq : scanQuoted quote cs with
      | unclosed => simp [hq, Quoted.push] at h
      | closed body' rest' =>
          rw [hq] at h
          cases h
          obtain ⟨rfl, hall⟩ := ih hq
          refine ⟨rfl, fun rest' => ?_⟩
          rw [List.cons_append, List.cons_append, List.cons_append, List.cons_append,
            List.nil_append, scanQuoted, if_neg hc, if_neg hn, if_pos hescape, hall]
          rfl
  | case8 c d cs hc hn hescape ih =>
      cases hq : scanQuoted quote (d :: cs) with
      | unclosed => simp [hq, Quoted.push] at h
      | closed body' rest' =>
          rw [hq] at h
          cases h
          obtain ⟨hd, hall⟩ := ih hq
          refine ⟨by rw [hd]; rfl, fun rest' => ?_⟩
          -- The next character decides about a backslash, and it is still `d`.
          obtain ⟨tail, htail⟩ : ∃ tail, body' ++ quote :: rest' = d :: tail := by
            cases body' with
            | nil =>
                obtain ⟨rfl, -⟩ := List.cons.inj hd
                exact ⟨rest', rfl⟩
            | cons b bs =>
                obtain ⟨rfl, -⟩ := List.cons.inj hd
                exact ⟨_, rfl⟩
          have hrest := hall rest'
          rw [htail] at hrest
          rw [List.cons_append, List.nil_append, List.cons_append, htail, scanQuoted, if_neg hc,
            if_neg hn, if_neg hescape, hrest]
          rfl

theorem scanLiteral_local (lead : List Char) (quote : Char) (make : String → Token) :
    Local (lead ++ [quote]) fun pos cs => scanLiteral pos lead quote make cs := by
  intro pos cs lexeme rest h
  cases hq : scanQuoted quote cs with
  | unclosed => simp [scanLiteral, hq] at h
  | closed body rest' =>
      simp only [scanLiteral, hq] at h
      obtain ⟨rfl, hall⟩ := scanQuoted_closed hq
      cases h
      refine ⟨body ++ [quote], by simp, by simp, fun pos' rest' _ => ?_⟩
      simp [scanLiteral, hall, emit]

section

variable {whole fraction rest : List Char} (hwhole : ∀ d ∈ whole, d.isDigit) (hrest : Breaks rest)
  (pos : Nat)

include hwhole hrest

theorem scanNumber_whole :
    scanNumber pos (whole ++ rest) =
      emit pos (.number (Binary64.ofDecimal false (natOfDigits whole) 0)) whole rest := by
  unfold scanNumber
  rw [takeWhile_breaks (fun _ => not_isDigit_of_isBlank) hwhole hrest,
    dropWhile_breaks (fun _ => not_isDigit_of_isBlank) hwhole hrest]
  split
  · exact absurd hrest (by simp [Breaks, isBlank])
  · rfl

theorem scanNumber_fraction (hfraction : ∀ d ∈ fraction, d.isDigit) (hne : fraction ≠ []) :
    scanNumber pos (whole ++ '.' :: (fraction ++ rest)) =
      emit pos (.number (Binary64.ofDecimal false (natOfDigits (whole ++ fraction))
        (-fraction.length))) (whole ++ '.' :: fraction) rest := by
  have hpoint : ¬ Char.isDigit '.' := by decide
  have htake : (whole ++ '.' :: (fraction ++ rest)).takeWhile Char.isDigit = whole := by
    rw [List.takeWhile_append_of_pos hwhole, List.takeWhile_cons_of_neg hpoint, List.append_nil]
  have hdrop : (whole ++ '.' :: (fraction ++ rest)).dropWhile Char.isDigit =
      '.' :: (fraction ++ rest) := by
    rw [List.dropWhile_append_of_pos hwhole, List.dropWhile_cons_of_neg hpoint]
  simp only [scanNumber, htake, hdrop,
    takeWhile_breaks (fun _ => not_isDigit_of_isBlank) hfraction hrest,
    dropWhile_breaks (fun _ => not_isDigit_of_isBlank) hfraction hrest, List.isEmpty_iff,
    if_neg hne]

end

theorem scanNumber_local {c : Char} (hc : c.isDigit) :
    Local [c] fun pos cs => scanNumber pos (c :: cs) := by
  intro pos cs lexeme rest h
  have htake : (c :: cs).takeWhile Char.isDigit = c :: cs.takeWhile Char.isDigit :=
    List.takeWhile_cons_of_pos hc
  have hdrop : (c :: cs).dropWhile Char.isDigit = cs.dropWhile Char.isDigit :=
    List.dropWhile_cons_of_pos hc
  have hdigits : ∀ d ∈ c :: cs.takeWhile Char.isDigit, d.isDigit :=
    fun d hd => List.mem_takeWhile_imp (htake ▸ hd)
  have hsplit := (List.takeWhile_append_dropWhile (p := Char.isDigit) (l := cs)).symm
  simp only [scanNumber, htake, hdrop] at h
  split at h
  case h_1 rest' hmore =>
    rw [hmore] at hsplit
    split at h
    case isTrue =>
      cases h
      exact ⟨_, hsplit, rfl, fun pos' rest' hbreak => scanNumber_whole hdigits hbreak pos'⟩
    case isFalse hne =>
      cases h
      refine ⟨cs.takeWhile Char.isDigit ++ '.' :: rest'.takeWhile Char.isDigit, ?_, rfl,
        fun pos' rest' hbreak => ?_⟩
      · rw [List.append_assoc, List.cons_append, List.takeWhile_append_dropWhile]
        exact hsplit
      · have hfraction := scanNumber_fraction hdigits hbreak pos'
          (fun d hd => List.mem_takeWhile_imp hd) (by simpa using hne)
        simpa using hfraction
  case h_2 =>
    cases h
    exact ⟨_, hsplit, rfl, fun pos' rest' hbreak => scanNumber_whole hdigits hbreak pos'⟩

theorem scanWord_local {c : Char} (hc : isWordChar c) :
    Local [c] fun pos cs => scanWord pos (c :: cs) := by
  intro pos cs lexeme rest h
  have htake : (c :: cs).takeWhile isWordChar = c :: cs.takeWhile isWordChar :=
    List.takeWhile_cons_of_pos hc
  have hword : ∀ d ∈ c :: cs.takeWhile isWordChar, isWordChar d :=
    fun d hd => List.mem_takeWhile_imp (htake ▸ hd)
  simp only [scanWord, htake, List.dropWhile_cons_of_pos hc] at h
  cases h
  refine ⟨cs.takeWhile isWordChar, List.takeWhile_append_dropWhile.symm, rfl,
    fun pos' rest' hbreak => ?_⟩
  have htake' := takeWhile_breaks (fun _ => not_isWordChar_of_isBlank) hword hbreak
  have hdrop' := dropWhile_breaks (fun _ => not_isWordChar_of_isBlank) hword hbreak
  rw [List.cons_append] at htake' hdrop'
  simp only [scanWord, htake', hdrop', List.singleton_append, emit]

theorem scanTarget_local : Local ['@'] scanTarget := by
  intro pos cs lexeme rest h
  have hword : ∀ d ∈ cs.takeWhile isWordChar, isWordChar d :=
    fun d hd => List.mem_takeWhile_imp hd
  simp only [scanTarget] at h
  split at h
  case h_2 => cases h
  case h_1 target htarget =>
    cases h
    refine ⟨cs.takeWhile isWordChar, List.takeWhile_append_dropWhile.symm, rfl,
      fun pos' rest' hbreak => ?_⟩
    simp only [scanTarget, takeWhile_breaks (fun _ => not_isWordChar_of_isBlank) hword hbreak,
      dropWhile_breaks (fun _ => not_isWordChar_of_isBlank) hword hbreak, htarget,
      List.singleton_append]

theorem isWordChar_of_isWordStart {c : Char} (h : isWordStart c) : isWordChar c := by
  simp only [isWordStart, isWordChar, Char.isAlphanum, Bool.or_eq_true] at h ⊢
  exact h.imp .inl id

theorem scanMark_local {c : Char} (hstring : c ≠ '"') (hstyled : c ≠ '`') (hname : c ≠ '$')
    (htarget : c ≠ '@') (hdigit : ¬ c.isDigit) (hword : ¬ isWordStart c) :
    Local [c] fun pos cs => scanToken pos c cs := by
  intro pos cs lexeme rest h
  simp only [scanToken.eq_def, if_neg hstring, if_neg hstyled, if_neg hname, if_neg htarget,
    if_neg hdigit, if_neg hword] at h ⊢
  split at h
  case h_1 =>
    cases h
    exact ⟨['.', '.'], rfl, rfl, fun pos' rest' _ => rfl⟩
  case h_2 =>
    cases hm : markOf? c with
    | none =>
      rw [hm] at h
      cases h
    | some m =>
      rw [hm] at h
      cases h
      refine ⟨[], rfl, rfl, fun pos' rest' hbreak => ?_⟩
      split
      case h_1 hdots _ => exact absurd (congrArg List.head? hdots) (hbreak.head_ne rfl)
      case h_2 => rfl

theorem scanToken_local (c : Char) : Local [c] fun pos cs => scanToken pos c cs := by
  by_cases hstring : c = '"'
  · subst hstring
    exact scanLiteral_local [] '"' .string
  by_cases hstyled : c = '`'
  · subst hstyled
    exact scanLiteral_local [] '`' .styledText
  by_cases hname : c = '$'
  · subst hname
    intro pos cs lexeme rest h
    simp only [scanToken, if_neg hstring, if_neg hstyled, if_pos] at h
    split at h
    case h_2 => cases h
    case h_1 cs =>
      obtain ⟨text, rfl, hspan, hall⟩ := scanLiteral_local ['$'] '"' .varName h
      exact ⟨'"' :: text, rfl, hspan, hall⟩
  by_cases htarget : c = '@'
  · subst htarget
    exact scanTarget_local
  by_cases hdigit : c.isDigit
  · have heq (pos : Nat) (cs : List Char) : scanToken pos c cs = scanNumber pos (c :: cs) := by
      unfold scanToken
      rw [if_neg hstring, if_neg hstyled, if_neg hname, if_neg htarget, if_pos hdigit]
    simp only [heq]
    exact scanNumber_local hdigit
  by_cases hword : isWordStart c
  · have heq (pos : Nat) (cs : List Char) : scanToken pos c cs = scanWord pos (c :: cs) := by
      unfold scanToken
      rw [if_neg hstring, if_neg hstyled, if_neg hname, if_neg htarget, if_neg hdigit, if_pos hword]
    simp only [heq]
    exact scanWord_local (isWordChar_of_isWordStart hword)
  exact scanMark_local hstring hstyled hname htarget hdigit hword

theorem skipLayout_eq {comment : Bool} {pos pos' : Nat} {cs rest : List Char}
    (h : skipLayout comment pos cs = (pos', rest)) :
    ∃ gap, cs = gap ++ rest ∧ pos' = pos + width gap := by
  induction cs generalizing comment pos with
  | nil =>
      cases comment <;> cases h <;> exact ⟨[], rfl, rfl⟩
  | cons c cs ih =>
      have hstep {size : Nat} (hsize : size = c.utf8Size) {comment : Bool}
          (h : skipLayout comment (pos + size) cs = (pos', rest)) :
          ∃ gap, c :: cs = gap ++ rest ∧ pos' = pos + width gap := by
        obtain ⟨gap, hcs, hpos⟩ := ih h
        refine ⟨c :: gap, by rw [hcs, List.cons_append], ?_⟩
        rw [width_cons, hpos, hsize, Nat.add_assoc]
      cases comment with
      | true =>
          rw [skipLayout] at h
          split at h
          case isTrue hc => exact hstep (by rw [hc]; rfl) h
          case isFalse => exact hstep rfl h
      | false =>
          rw [skipLayout] at h
          split at h
          case isTrue hblank => exact hstep (utf8Size_of_isBlank hblank).symm h
          case isFalse =>
            split at h
            case isTrue hslash => exact hstep (by rw [hslash.1]; rfl) h
            case isFalse =>
              cases h
              exact ⟨[], rfl, rfl⟩

theorem skipLayout_start {comment : Bool} {pos pos' : Nat} {cs rest : List Char} {c : Char}
    (h : skipLayout comment pos cs = (pos', c :: rest)) :
    isBlank c = false ∧ ¬ (c = '/' ∧ rest.head? = some '/') := by
  induction cs generalizing comment pos with
  | nil => cases comment <;> cases h
  | cons d ds ih =>
      cases comment with
      | true =>
          rw [skipLayout] at h
          split at h <;> exact ih h
      | false =>
          rw [skipLayout] at h
          split at h
          case isTrue => exact ih h
          case isFalse hblank =>
            split at h
            case isTrue => exact ih h
            case isFalse hslash =>
              cases h
              exact ⟨by simpa using hblank, hslash⟩

theorem skipLayout_comment {body : List Char} (h : '\n' ∉ body) (pos : Nat) (cs : List Char) :
    ∃ pos', skipLayout true pos (body ++ '\n' :: cs) = skipLayout false pos' cs := by
  induction body generalizing pos with
  | nil => exact ⟨pos + 1, by rw [List.nil_append, skipLayout, if_pos rfl]⟩
  | cons c body ih =>
      obtain ⟨hc, hbody⟩ := List.ne_and_not_mem_of_not_mem_cons h
      obtain ⟨pos', hpos⟩ := ih hbody (pos + c.utf8Size)
      exact ⟨pos', by rw [List.cons_append, skipLayout, if_neg (Ne.symm hc), hpos]⟩

theorem skipLayout_slashes (pos : Nat) (cs : List Char) :
    skipLayout false pos ('/' :: '/' :: cs) = skipLayout true (pos + 2) cs := rfl

theorem skipLayout_layout {gap : List Char} (h : Layout gap) (pos : Nat) (cs : List Char) :
    ∃ pos', skipLayout false pos (gap ++ cs) = skipLayout false pos' cs := by
  induction h generalizing pos with
  | nil => exact ⟨pos, rfl⟩
  | blank blank rest ih =>
      obtain ⟨pos', hpos⟩ := ih (pos + 1)
      exact ⟨pos', by rw [List.cons_append, skipLayout, if_pos blank, hpos]⟩
  | comment inline rest ih =>
      rw [List.cons_append, List.cons_append, List.append_assoc, skipLayout_slashes]
      obtain ⟨pos', hpos⟩ := skipLayout_comment inline (pos + 2) (_ ++ cs)
      obtain ⟨pos'', hpos'⟩ := ih pos'
      exact ⟨pos'', hpos.trans hpos'⟩

theorem skipLayout_remark {remark : List Char} (h : Remark remark) (pos : Nat) :
    ∃ pos', skipLayout false pos remark = (pos', []) := by
  have hbody {body : List Char} (h : '\n' ∉ body) (pos : Nat) :
      ∃ pos', skipLayout true pos body = (pos', []) := by
    induction body generalizing pos with
    | nil => exact ⟨pos, rfl⟩
    | cons c body ih =>
        obtain ⟨hc, hbody⟩ := List.ne_and_not_mem_of_not_mem_cons h
        obtain ⟨pos', hpos⟩ := ih hbody (pos + c.utf8Size)
        exact ⟨pos', by rw [skipLayout, if_neg (Ne.symm hc), hpos]⟩
  cases h with
  | none => exact ⟨pos, rfl⟩
  | comment inline => exact hbody inline (pos + 2)

/-- A token and its text, which is read as this token wherever a break follows. -/
structure Word where
  token : Token
  first : Char
  more : List Char
  starts : isBlank first = false ∧ ¬ (first = '/' ∧ more.head? = some '/')
  scanned : ∀ pos rest, Breaks rest →
    scanToken pos first (more ++ rest) = emit pos token (first :: more) rest

def Word.text (w : Word) : List Char := w.first :: w.more

theorem word_of_scanToken {pos start : Nat} {cs rest rest' : List Char} {c : Char}
    {lexeme : Lexeme} (hskip : skipLayout false pos cs = (start, c :: rest))
    (hscan : scanToken start c rest = .ok (lexeme, rest')) :
    ∃ w : Word, c :: rest = w.text ++ rest' ∧
      lexeme = ⟨w.token, ⟨start, start + width w.text⟩⟩ := by
  obtain ⟨hblank, hslash⟩ := skipLayout_start hskip
  obtain ⟨more, rfl, hspan, hall⟩ := scanToken_local c hscan
  have hopen : ¬ (c = '/' ∧ more.head? = some '/') := by
    cases more with
    | nil => simp
    | cons d ds => exact hslash
  obtain ⟨token, span⟩ := lexeme
  cases hspan
  exact ⟨⟨token, c, more, ⟨hblank, hopen⟩, hall⟩, rfl, rfl⟩

theorem Word.length_lt (w : Word) (cs : List Char) : cs.length < (w.text ++ cs).length := by
  simp only [Word.text, List.length_append, List.length_cons]
  omega

theorem scanAll_words {n pos : Nat} {cs : List Char} {lexemes : List Lexeme} (hn : cs.length < n)
    (h : scanAll n pos cs = .ok lexemes) (before : List Char) (hpos : pos = width before) :
    ∃ words : List Word, lexemes.map Lexeme.token = words.map Word.token ++ [.eof] ∧
      tokenTexts (before ++ cs) lexemes = words.map Word.text := by
  induction n generalizing pos cs lexemes before with
  | zero => omega
  | succ n ih =>
      rw [scanAll] at h
      cases hskip : skipLayout false pos cs with
      | mk start left =>
          obtain ⟨gap, rfl, hstart⟩ := skipLayout_eq hskip
          rw [hskip] at h
          cases left with
          | nil =>
              cases h
              exact ⟨[], rfl, rfl⟩
          | cons c rest =>
              obtain ⟨⟨lexeme, rest'⟩, hscan, h⟩ := bind_eq_ok.mp h
              obtain ⟨later, hlater, h⟩ := bind_eq_ok.mp h
              cases h
              obtain ⟨w, hsplit, rfl⟩ := word_of_scanToken hskip hscan
              rw [hsplit] at hn ⊢
              have hlen : rest'.length < n := by
                have hlt := w.length_lt rest'
                rw [List.length_append] at hn
                omega
              rw [hstart, hpos, ← width_append] at hlater ⊢
              obtain ⟨words, htokens, htexts⟩ := ih hlen hlater _ (width_append _ w.text).symm
              refine ⟨w :: words, ?_, ?_⟩
              · rw [List.map_cons, htokens, List.map_cons, List.cons_append]
              · have hne : later ≠ [] := by
                  rintro rfl
                  simp at htokens
                have htext := Span.text_eq (before ++ gap) w.text rest'
                simp only [tokenTexts, List.append_assoc] at htext htexts ⊢
                rw [List.dropLast_cons_of_ne_nil hne, List.map_cons, List.map_cons, htexts, htext]

theorem skipLayout_word (w : Word) {rest : List Char} (hbreak : Breaks rest) (pos : Nat) :
    skipLayout false pos (w.text ++ rest) = (pos, w.first :: (w.more ++ rest)) := by
  obtain ⟨hblank, hslash⟩ := w.starts
  have hslash' : ¬ (w.first = '/' ∧ (w.more ++ rest).head? = some '/') := by
    rintro ⟨hfirst, hmore⟩
    rcases hm : w.more with _ | ⟨d, ds⟩
    · rw [hm, List.nil_append] at hmore
      exact hbreak.head_ne rfl hmore
    · rw [hm] at hmore
      exact hslash ⟨hfirst, by rw [hm]; exact hmore⟩
  rw [Word.text, List.cons_append, skipLayout, if_neg (by simp [hblank]), if_neg hslash']

/-- Words that are laid out in any way are read as their tokens. -/
theorem scanAll_laidOut {words : List Word} {n : Nat} {cs : List Char} (hn : cs.length < n)
    (h : LaidOut (words.map Word.text) cs) (pos : Nat) :
    ∃ lexemes, scanAll n pos cs = .ok lexemes ∧
      lexemes.map Lexeme.token = words.map Word.token ++ [.eof] := by
  induction words generalizing n pos cs with
  | nil =>
      obtain _ | n := n
      · omega
      obtain ⟨front, last⟩ | _ := h
      obtain ⟨pos', hfront⟩ := skipLayout_layout front pos _
      obtain ⟨stop, hlast⟩ := skipLayout_remark last pos'
      exact ⟨_, by rw [scanAll, hfront, hlast], rfl⟩
  | cons w words ih =>
      obtain _ | n := n
      · omega
      obtain _ | ⟨front, rest⟩ := h
      rename_i lead tail
      obtain ⟨pos', hfront⟩ := skipLayout_layout front pos (w.text ++ tail)
      have hskip := hfront.trans (skipLayout_word w rest.breaks pos')
      have hlen : tail.length < n := by
        simp only [Word.text, List.length_append, List.length_cons] at hn
        omega
      obtain ⟨lexemes, hlexemes, htokens⟩ := ih hlen rest.laidOut (pos' + width w.text)
      refine ⟨⟨w.token, ⟨pos', pos' + width w.text⟩⟩ :: lexemes, ?_, ?_⟩
      · rw [scanAll, hskip]
        refine bind_eq_ok.mpr ⟨_, w.scanned pos' tail rest.breaks, ?_⟩
        exact bind_eq_ok.mpr ⟨lexemes, hlexemes, rfl⟩
      · rw [List.map_cons, htokens, List.map_cons, List.cons_append]

end Lexer

open Lexer

theorem lex_laidOut {source source' : String} {lexemes : List Lexeme}
    (h : lex source = .ok lexemes)
    (hlaid : LaidOut (tokenTexts source.toList lexemes) source'.toList) :
    ∃ lexemes', lex source' = .ok lexemes' ∧
      lexemes'.map Lexeme.token = lexemes.map Lexeme.token := by
  obtain ⟨words, htokens, htexts⟩ := scanAll_words (Nat.lt_succ_self _) h [] rfl
  rw [List.nil_append] at htexts
  rw [htexts] at hlaid
  rw [htokens]
  exact scanAll_laidOut (Nat.lt_succ_self _) hlaid 0

end DiamondScript
