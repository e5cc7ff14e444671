import DiamondScript.Proofs.Spacing

namespace DiamondScript

open Lexer

namespace Lexer

theorem utf8ByteSize_ofList (cs : List Char) : (String.ofList cs).utf8ByteSize = width cs := by
  induction cs with
  | nil => rfl
  | cons c cs ih =>
      rw [← List.singleton_append, String.ofList_append, String.utf8ByteSize_append, ih,
        List.singleton_append, width_cons, ← String.singleton_eq_ofList,
        String.utf8ByteSize_singleton]

theorem isValid_width {source : String} {before after : List Char}
    (h : source.toList = before ++ after) : String.Pos.Raw.IsValid source ⟨width before⟩ := by
  refine String.Pos.Raw.isValid_iff_exists_append.mpr
    ⟨.ofList before, .ofList after, ?_, ?_⟩
  · rw [← String.ofList_append, ← h, String.ofList_toList]
  · rw [String.rawEndPos, utf8ByteSize_ofList]

theorem exists_of_isValid {source : String} {n : Nat}
    (h : String.Pos.Raw.IsValid source ⟨n⟩) :
    ∃ before after, source.toList = before ++ after ∧ n = width before := by
  obtain ⟨before, after, rfl, hn⟩ := String.Pos.Raw.isValid_iff_exists_append.mp h
  refine ⟨before.toList, after.toList, String.toList_append, ?_⟩
  rw [← utf8ByteSize_ofList, String.ofList_toList]
  exact congrArg String.Pos.Raw.byteIdx hn

end Lexer

/-- The span lies inside the source text and both its ends are character boundaries. -/
structure Span.Within (source : String) (span : Span) : Prop where
  ordered : span.start ≤ span.stop
  inside : span.stop ≤ source.utf8ByteSize
  starts : String.Pos.Raw.IsValid source ⟨span.start⟩
  stops : String.Pos.Raw.IsValid source ⟨span.stop⟩

theorem Span.within_of_split {source : String} {before text after : List Char}
    (h : source.toList = before ++ (text ++ after)) :
    Span.Within source ⟨width before, width (before ++ text)⟩ := by
  have hsize : source.utf8ByteSize = width (before ++ text) + width after := by
    rw [← width_append, List.append_assoc, ← h, ← utf8ByteSize_ofList, String.ofList_toList]
  refine ⟨?_, ?_, isValid_width h, isValid_width (h.trans (List.append_assoc ..).symm)⟩
  · rw [width_append]
    exact Nat.le_add_right ..
  · rw [hsize]
    exact Nat.le_add_right ..

namespace Lexer

/-- What stands in front of the rest of a text: blanks and comments, of which only the last one
may lack its newline, and only where nothing follows. -/
def Gap (gap rest : List Char) : Prop :=
  ∃ lead remark, gap = lead ++ remark ∧ Layout lead ∧ Remark remark ∧ (rest ≠ [] → remark = [])

theorem Gap.nil (rest : List Char) : Gap [] rest := ⟨[], [], rfl, .nil, .none, fun _ => rfl⟩

theorem Gap.blank {c : Char} {gap rest : List Char} (hc : isBlank c) (h : Gap gap rest) :
    Gap (c :: gap) rest := by
  obtain ⟨lead, remark, rfl, hlead, hremark, hlast⟩ := h
  exact ⟨c :: lead, remark, rfl, .blank hc hlead, hremark, hlast⟩

theorem Gap.comment {body gap rest : List Char} (hbody : '\n' ∉ body) (h : Gap gap rest) :
    Gap ('/' :: '/' :: (body ++ '\n' :: gap)) rest := by
  obtain ⟨lead, remark, rfl, hlead, hremark, hlast⟩ := h
  exact ⟨_, remark, by simp, .comment hbody hlead, hremark, hlast⟩

theorem Gap.remark {body : List Char} (hbody : '\n' ∉ body) : Gap ('/' :: '/' :: body) [] :=
  ⟨[], _, rfl, .nil, .comment hbody, fun h => absurd rfl h⟩

theorem skipLayout_true (pos : Nat) (cs : List Char) :
    ('\n' ∉ cs ∧ skipLayout true pos cs = (pos + width cs, [])) ∨
    ∃ body rest, '\n' ∉ body ∧ cs = body ++ '\n' :: rest ∧
      skipLayout true pos cs = skipLayout false (pos + width body + 1) rest := by
  induction cs generalizing pos with
  | nil => exact .inl ⟨List.not_mem_nil, rfl⟩
  | cons c cs ih =>
      by_cases hc : c = '\n'
      · subst hc
        exact .inr ⟨[], cs, List.not_mem_nil, rfl, rfl⟩
      have hstep : skipLayout true pos (c :: cs) = skipLayout true (pos + c.utf8Size) cs := by
        rw [skipLayout, if_neg hc]
      rw [hstep]
      rcases ih (pos + c.utf8Size) with ⟨hnone, heq⟩ | ⟨body, rest, hbody, rfl, heq⟩
      · refine .inl ⟨List.not_mem_cons_of_ne_of_not_mem (Ne.symm hc) hnone, ?_⟩
        rw [heq, width_cons, Nat.add_assoc]
      · refine .inr ⟨c :: body, rest, ?_, rfl, ?_⟩
        · exact List.not_mem_cons_of_ne_of_not_mem (Ne.symm hc) hbody
        rw [heq, width_cons, Nat.add_assoc pos]

theorem skipLayout_gap (pos : Nat) (cs : List Char) :
    ∃ gap rest, cs = gap ++ rest ∧ Gap gap rest ∧
      skipLayout false pos cs = (pos + width gap, rest) := by
  induction hn : cs.length using Nat.strong_induction_on generalizing pos cs with
  | _ n ih =>
      match cs with
      | [] => exact ⟨[], [], rfl, .nil [], rfl⟩
      | c :: cs =>
          by_cases hblank : isBlank c
          · obtain ⟨gap, rest, rfl, hgap, heq⟩ := ih cs.length (by simp [← hn]) (pos + 1) cs rfl
            refine ⟨c :: gap, rest, rfl, hgap.blank hblank, ?_⟩
            rw [skipLayout, if_pos hblank, heq, width_cons, utf8Size_of_isBlank hblank,
              Nat.add_assoc]
          by_cases hslash : c = '/' ∧ cs.head? = some '/'
          case neg =>
            refine ⟨[], c :: cs, rfl, .nil _, ?_⟩
            rw [skipLayout, if_neg hblank, if_neg hslash]
            rfl
          obtain ⟨rfl, hhead⟩ := hslash
          obtain ⟨ds, rfl⟩ := List.head?_eq_some_iff.mp hhead
          rw [skipLayout_slashes]
          -- A closed comment leaves a shorter text, an open one leaves nothing.
          rcases skipLayout_true (pos + 2) ds with ⟨hnone, heq⟩ | ⟨body, rest, hbody, rfl, heq⟩
          · refine ⟨'/' :: '/' :: ds, [], by simp, .remark hnone, ?_⟩
            rw [heq, width_cons, width_cons, ← Nat.add_assoc, ← Nat.add_assoc]
            rfl
          · obtain ⟨gap, rest, rfl, hgap, hrest⟩ :=
              ih rest.length (by simp [← hn]; omega) (pos + 2 + width body + 1) rest rfl
            refine ⟨_, rest, by simp, hgap.comment hbody, ?_⟩
            have hsize : Char.utf8Size '/' = 1 ∧ Char.utf8Size '\n' = 1 := ⟨rfl, rfl⟩
            rw [heq, hrest, width_cons, width_cons, width_append, width_cons, hsize.1, hsize.2]
            congr 1
            omega

theorem wordToken_ne_eof (word : String) : wordToken word ≠ .eof := by
  unfold wordToken
  split
  · nofun
  · split <;> nofun

/-- What a scanner makes of a text: a token at its front, or an error about a part of it. -/
inductive Outcome (pos : Nat) (cs : List Char) : Scan → Prop
  | accept {token : Token} {text rest : List Char} (split : cs = text ++ rest)
      (named : token ≠ .eof) : Outcome pos cs (emit pos token text rest)
  | reject {fault : LexFault} {lead text rest : List Char} (split : cs = lead ++ (text ++ rest)) :
      Outcome pos cs (.error ⟨fault, ⟨pos + width lead, pos + width (lead ++ text)⟩⟩)

theorem scanQuoted_unclosed {quote : Char} {cs body : List Char}
    (h : scanQuoted quote cs = .unclosed body) : ∃ rest, cs = body ++ rest := by
  fun_induction scanQuoted quote cs generalizing body with
  | case1 | case3 | case4 | case6 =>
      cases h
      exact ⟨_, rfl⟩
  | case2 | case5 => cases h
  | case7 c d cs _ _ _ ih | case8 c d cs _ _ _ ih =>
      rw [Quoted.push.eq_def] at h
      split at h
      case h_1 => cases h
      case h_2 body' hq =>
        obtain ⟨rest, hrest⟩ := ih hq
        cases h
        exact ⟨rest, by simp [hrest]⟩

theorem scanLiteral_outcome {make : String → Token} (hmake : ∀ s, make s ≠ .eof) (pos : Nat)
    (lead : List Char) (quote : Char) (cs : List Char) :
    Outcome pos (lead ++ quote :: cs) (scanLiteral pos lead quote make cs) := by
  unfold scanLiteral
  split
  case h_1 body rest hq =>
    obtain ⟨rfl, -⟩ := scanQuoted_closed hq
    exact .accept (by simp) (hmake _)
  case h_2 body hq =>
    obtain ⟨rest, rfl⟩ := scanQuoted_unclosed hq
    have hsplit : lead ++ quote :: (body ++ rest) = lead ++ (quote :: body ++ rest) := rfl
    exact .reject hsplit

theorem scanNumber_outcome (pos : Nat) (cs : List Char) : Outcome pos cs (scanNumber pos cs) := by
  have hsplit := (List.takeWhile_append_dropWhile (p := Char.isDigit) (l := cs)).symm
  unfold scanNumber
  dsimp only
  split
  case h_1 rest hmore =>
    rw [hmore] at hsplit
    split
    · exact .accept hsplit (by nofun)
    · refine .accept ?_ (by nofun)
      rw [List.append_assoc, List.cons_append, List.takeWhile_append_dropWhile]
      exact hsplit
  case h_2 => exact .accept hsplit (by nofun)

theorem scanTarget_outcome (pos : Nat) (cs : List Char) :
    Outcome pos ('@' :: cs) (scanTarget pos cs) := by
  have hsplit : '@' :: cs = [] ++ ('@' :: cs.takeWhile isWordChar ++ cs.dropWhile isWordChar) := by
    rw [List.nil_append, List.cons_append, List.takeWhile_append_dropWhile]
  unfold scanTarget
  dsimp only
  split
  · exact .accept hsplit (by nofun)
  · exact .reject hsplit

theorem scanToken_outcome (pos : Nat) (c : Char) (cs : List Char) :
    Outcome pos (c :: cs) (scanToken pos c cs) := by
  unfold scanToken
  split
  case isTrue hc =>
    subst hc
    exact scanLiteral_outcome (by nofun) pos [] _ cs
  split
  case isTrue hc =>
    subst hc
    exact scanLiteral_outcome (by nofun) pos [] _ cs
  split
  case isTrue hc =>
    subst hc
    split
    · exact scanLiteral_outcome (by nofun) pos ['$'] _ _
    · have hsplit : '$' :: cs = [] ++ (['$'] ++ cs) := rfl
      exact .reject hsplit
  split
  case isTrue hc =>
    subst hc
    exact scanTarget_outcome pos cs
  split
  · exact scanNumber_outcome pos (c :: cs)
  split
  · exact .accept List.takeWhile_append_dropWhile.symm (wordToken_ne_eof _)
  split
  · exact .accept rfl (by nofun)
  · split
    · exact .accept rfl (by nofun)
    · have hsplit : c :: cs = [] ++ ([c] ++ cs) := rfl
      rw [show c.utf8Size = width ([] ++ [c]) from (width_cons c []).symm]
      exact .reject hsplit

theorem scanToken_ne_eof {pos : Nat} {c : Char} {cs rest : List Char} {lexeme : Lexeme}
    (h : scanToken pos c cs = .ok (lexeme, rest)) : lexeme.token ≠ .eof := by
  have houtcome := scanToken_outcome pos c cs
  rw [h] at houtcome
  obtain ⟨-, named⟩ := houtcome
  exact named

/-- Tokens that take up a text behind the text `before`, each behind layout only. -/
inductive Tiled : List Char → List Char → List Lexeme → Prop
  | stop {before gap : List Char} (front : Gap gap []) :
      Tiled before gap [⟨.eof, ⟨width (before ++ gap), width (before ++ gap)⟩⟩]
  | next {before gap cs : List Char} {lexemes : List Lexeme} (w : Word) (named : w.token ≠ .eof)
      (front : Gap gap (w.text ++ cs)) (rest : Tiled (before ++ (gap ++ w.text)) cs lexemes) :
      Tiled before (gap ++ (w.text ++ cs))
        (⟨w.token, ⟨width (before ++ gap), width (before ++ (gap ++ w.text))⟩⟩ :: lexemes)

theorem scanAll_tiled {n : Nat} {before cs : List Char} {lexemes : List Lexeme}
    (hn : cs.length < n) (h : scanAll n (width before) cs = .ok lexemes) :
    Tiled before cs lexemes := by
  induction n generalizing before cs lexemes with
  | zero => omega
  | succ n ih =>
      obtain ⟨gap, rest, rfl, hgap, hskip⟩ := skipLayout_gap (width before) cs
      rw [scanAll, hskip, ← width_append] at h
      cases rest with
      | nil =>
          cases h
          rw [List.append_nil]
          exact .stop hgap
      | cons c rest =>
          obtain ⟨⟨lexeme, rest'⟩, hscan, h⟩ := bind_eq_ok.mp h
          obtain ⟨later, hlater, h⟩ := bind_eq_ok.mp h
          cases h
          have hnamed := scanToken_ne_eof hscan
          rw [← width_append] at hskip
          obtain ⟨w, hsplit, rfl⟩ := word_of_scanToken hskip hscan
          rw [hsplit] at hn hgap ⊢
          have hlen : rest'.length < n := by
            have hlt := w.length_lt rest'
            rw [List.length_append] at hn
            omega
          rw [← width_append, List.append_assoc] at hlater ⊢
          exact .next w hnamed hgap (ih hlen hlater)

theorem lex_tiled {source : String} {lexemes : List Lexeme} (h : lex source = .ok lexemes) :
    Tiled [] source.toList lexemes :=
  scanAll_tiled (Nat.lt_succ_self _) h

/-- The stretches of a text in front of each token, from a byte offset on. -/
def gaps : Nat → List Lexeme → List Span
  | _, [] => []
  | pos, l :: lexemes => ⟨pos, l.span.start⟩ :: gaps l.span.stop lexemes

namespace Tiled

variable {before cs : List Char} {lexemes : List Lexeme}

theorem closed (h : Tiled before cs lexemes) :
    ∃ named, lexemes = named ++ [⟨.eof, ⟨width (before ++ cs), width (before ++ cs)⟩⟩] ∧
      ∀ l ∈ named, l.token ≠ .eof ∧ l.span.start < l.span.stop := by
  induction h with
  | stop => exact ⟨[], rfl, by simp⟩
  | @next before gap cs lexemes w named front rest ih =>
      obtain ⟨tokens, rfl, hall⟩ := ih
      have hpos := w.first.utf8Size_pos
      have hwide : width (before ++ gap) < width (before ++ (gap ++ w.text)) := by
        simp only [Word.text, width_append, width_cons]
        omega
      refine ⟨⟨w.token, ⟨width (before ++ gap), width (before ++ (gap ++ w.text))⟩⟩ :: tokens, ?_,
        List.forall_mem_cons.mpr ⟨⟨named, hwide⟩, hall⟩⟩
      simp only [List.cons_append, List.append_assoc]

theorem le_start (h : Tiled before cs lexemes) :
    ∀ l ∈ lexemes, width before ≤ l.span.start := by
  induction h with
  | stop => simp [width_append]
  | next w named front rest ih =>
      simp only [width_append] at ih
      refine List.forall_mem_cons.mpr ⟨by simp [width_append], fun l hl => ?_⟩
      have hle := ih l hl
      omega

theorem pairwise (h : Tiled before cs lexemes) :
    lexemes.Pairwise fun l l' => l.span.stop ≤ l'.span.start := by
  induction h with
  | stop => exact List.pairwise_singleton ..
  | next w named front rest ih => exact .cons rest.le_start ih

theorem covers (h : Tiled before cs lexemes) :
    ∀ l ∈ lexemes, ∃ front text after, before ++ cs = front ++ (text ++ after) ∧
      l.span = ⟨width front, width (front ++ text)⟩ ∧
      (l.token ≠ .eof → ∃ w : Word, w.token = l.token ∧ w.text = text) := by
  induction h with
  | @stop before gap front =>
      refine List.forall_mem_singleton.mpr ⟨before ++ gap, [], [], by simp, by simp, ?_⟩
      intro hnamed
      exact absurd rfl hnamed
  | @next before gap cs lexemes w named front rest ih =>
      refine List.forall_mem_cons.mpr ⟨?_, ?_⟩
      · exact ⟨before ++ gap, w.text, cs, by simp, by simp, fun _ => ⟨w, rfl, rfl⟩⟩
      · simpa using ih

theorem gaps_eq (h : Tiled before cs lexemes) :
    ∀ g ∈ gaps (width before) lexemes, ∃ front gap after,
      before ++ cs = front ++ (gap ++ after) ∧ g = ⟨width front, width (front ++ gap)⟩ ∧
      Gap gap after := by
  induction h with
  | @stop before gap front =>
      exact List.forall_mem_singleton.mpr ⟨before, gap, [], by simp, rfl, front⟩
  | @next before gap cs lexemes w named front rest ih =>
      refine List.forall_mem_cons.mpr ⟨⟨before, gap, _, rfl, rfl, front⟩, ?_⟩
      simpa using ih

end Tiled

theorem lex_word (w : Word) :
    lex (String.ofList w.text) =
      .ok [⟨w.token, ⟨0, width w.text⟩⟩, ⟨.eof, ⟨width w.text, width w.text⟩⟩] := by
  have hskip := @skipLayout_word w [] trivial 0
  rw [List.append_nil] at hskip
  have hend : scanAll w.text.length (0 + width w.text) [] =
      .ok [⟨.eof, ⟨width w.text, width w.text⟩⟩] := by
    rw [Nat.zero_add]
    rfl
  rw [lex, String.toList_ofList, scanAll, hskip]
  refine bind_eq_ok.mpr ⟨_, w.scanned 0 [] trivial, bind_eq_ok.mpr ⟨_, hend, ?_⟩⟩
  rw [Nat.zero_add]
  rfl

end Lexer

/-- The tokens and the layout between them take up the whole source text. -/
structure Accounts (source : String) (lexemes : List Lexeme) : Prop where
  closed : ∃ named, lexemes =
      named ++ [⟨.eof, ⟨source.utf8ByteSize, source.utf8ByteSize⟩⟩] ∧
    ∀ l ∈ named, l.token ≠ .eof ∧ l.span.start < l.span.stop
  within : ∀ l ∈ lexemes, l.span.Within source
  disjoint : lexemes.Pairwise fun l l' => l.span.stop ≤ l'.span.start
  layout : ∀ g ∈ gaps 0 lexemes, g.Within source ∧ ∃ lead remark,
    g.text source.toList = lead ++ remark ∧ Lexer.Layout lead ∧ Remark remark ∧
    (remark ≠ [] → g.stop = source.utf8ByteSize)
  alone : ∀ l ∈ lexemes, l.token ≠ .eof → ∃ n, l.span.stop = l.span.start + n ∧
    lex (String.ofList (l.span.text source.toList)) =
      .ok [⟨l.token, ⟨0, n⟩⟩, ⟨.eof, ⟨n, n⟩⟩]

theorem accounts_of_lex {source : String} {lexemes : List Lexeme}
    (h : lex source = .ok lexemes) : Accounts source lexemes := by
  have htiled := lex_tiled h
  have hsize : width source.toList = source.utf8ByteSize := by
    rw [← utf8ByteSize_ofList, String.ofList_toList]
  refine ⟨?_, ?_, htiled.pairwise, ?_, ?_⟩
  · have hclosed := htiled.closed
    rwa [List.nil_append, hsize] at hclosed
  · intro l hl
    obtain ⟨front, text, after, hsplit, hspan, -⟩ := htiled.covers l hl
    rw [hspan]
    exact Span.within_of_split hsplit
  · intro g hg
    obtain ⟨front, gap, after, hsplit, rfl, lead, remark, rfl, hlead, hremark, hlast⟩ :=
      htiled.gaps_eq g hg
    rw [List.nil_append] at hsplit
    refine ⟨Span.within_of_split hsplit, lead, remark, ?_, hlead, hremark, fun hne => ?_⟩
    · rw [hsplit, width_append, Span.text_eq]
    · obtain rfl : after = [] := by
        by_contra hafter
        exact hne (hlast hafter)
      rw [← hsize, hsplit, List.append_nil]
  · intro l hl hnamed
    obtain ⟨front, text, after, hsplit, hspan, hword⟩ := htiled.covers l hl
    obtain ⟨w, htoken, rfl⟩ := hword hnamed
    rw [List.nil_append] at hsplit
    refine ⟨width w.text, by rw [hspan, width_append], ?_⟩
    rw [hspan, hsplit, width_append, Span.text_eq, lex_word, htoken]

end DiamondScript
