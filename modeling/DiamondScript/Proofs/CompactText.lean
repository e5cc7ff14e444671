import DiamondScript.Proofs.JsonText
import DiamondScript.Proofs.NumberText

namespace DiamondScript.Json

open Layout (isNumeral)

def AllFinite (v : Json) : Prop := ∀ x ∈ v.floats, x.isFinite

/-- Among elements with the property `P`, the text of this one tells which it is and where it
ends. -/
def Tells {α : Type} (P : α → Prop) (shown : α → List Char) (a : α) : Prop :=
  ∀ b r s, P b → Ends r → Ends s → shown a ++ r = shown b ++ s → a = b ∧ r = s

section separated

variable {α : Type} {P : α → Prop} {shown : α → List Char} {close : Char}
  (hclose : close = ']' ∨ close = '}')

def separated (shown : α → List Char) : List α → List Char
  | [] => []
  | a :: rest => shown a ++ rest.flatMap fun b => ',' :: shown b

include hclose

theorem ends_flatMap (items : List α) (rest : List Char) :
    Ends (items.flatMap (fun b => ',' :: shown b) ++ close :: rest) := by
  have h := ends_more hclose [] (items.map shown) rest
  rw [List.flatMap_map] at h
  exact h

theorem tells_more {items items' : List α} {r s : List Char}
    (htells : ∀ a ∈ items, Tells P shown a) (hitems : ∀ b ∈ items', P b)
    (h : items.flatMap (fun b => ',' :: shown b) ++ close :: r =
      items'.flatMap (fun b => ',' :: shown b) ++ close :: s) : items = items' ∧ r = s := by
  have hcomma : close ≠ ',' := by rcases hclose with rfl | rfl <;> decide
  induction items generalizing items' with
  | nil =>
      cases items' with
      | nil => exact ⟨rfl, (List.cons.inj h).2⟩
      | cons b rest => exact absurd (List.cons.inj h).1 hcomma
  | cons a rest ih =>
      cases items' with
      | nil => exact absurd (List.cons.inj h).1.symm hcomma
      | cons b rest' =>
          rw [List.forall_mem_cons] at htells hitems
          simp only [List.flatMap_cons, List.cons_append, List.append_assoc, List.cons.injEq,
            true_and] at h
          obtain ⟨rfl, hmore⟩ := htells.1 b _ _ hitems.1 (ends_flatMap hclose rest r)
            (ends_flatMap hclose rest' s) h
          obtain ⟨rfl, hrs⟩ := ih htells.2 hitems.2 hmore
          exact ⟨rfl, hrs⟩

/-- No element starts like the end of the list. -/
theorem tells_separated {items items' : List α} {r s : List Char}
    (hstarts : ∀ a, P a → ∀ rest, (shown a ++ rest).head? ≠ some close)
    (htells : ∀ a ∈ items, P a ∧ Tells P shown a) (hitems : ∀ b ∈ items', P b)
    (h : separated shown items ++ close :: r = separated shown items' ++ close :: s) :
    items = items' ∧ r = s := by
  cases items with
  | nil =>
      cases items' with
      | nil => exact ⟨rfl, (List.cons.inj h).2⟩
      | cons b rest =>
          rw [separated, separated, List.append_assoc] at h
          exact absurd (congrArg List.head? h).symm (hstarts b (hitems b List.mem_cons_self) _)
  | cons a rest =>
      rw [List.forall_mem_cons] at htells
      cases items' with
      | nil =>
          rw [separated, separated, List.append_assoc] at h
          exact absurd (congrArg List.head? h) (hstarts a htells.1.1 _)
      | cons b rest' =>
          rw [List.forall_mem_cons] at hitems
          rw [separated, separated, List.append_assoc, List.append_assoc] at h
          obtain ⟨rfl, hmore⟩ := htells.1.2 b _ _ hitems.1 (ends_flatMap hclose rest r)
            (ends_flatMap hclose rest' s) h
          obtain ⟨rfl, hrs⟩ := tells_more hclose (fun c hc => (htells.2 c hc).2) hitems.2 hmore
          exact ⟨rfl, hrs⟩

end separated

/-- The first character of a value, one for all numbers. -/
def lead : Json → Char
  | .null => 'n'
  | .bool true => 't'
  | .bool false => 'f'
  | .int _ | .float _ => '0'
  | .str _ => '"'
  | .arr _ => '['
  | .obj _ => '{'

def leadOf (c : Char) : Char := if startsNumber c then '0' else c

theorem leadOf_digits {cs : List Char} (hne : cs ≠ []) (h : ∀ c ∈ cs, c.isDigit) :
    ∃ c rest, cs = c :: rest ∧ leadOf c = '0' := by
  obtain ⟨c, rest, rfl⟩ := List.exists_cons_of_ne_nil hne
  refine ⟨c, rest, rfl, ?_⟩
  simp [leadOf, startsNumber, h c List.mem_cons_self]

theorem leadOf_intText (n : Int) : ∃ c rest, intText n = c :: rest ∧ leadOf c = '0' := by
  rw [intText]
  split
  · exact ⟨'-', _, rfl, rfl⟩
  · exact leadOf_digits Nat.toDigits_ne_nil (Layout.isDigit_toDigits _)

theorem leadOf_floatText {x : Binary64} (h : x.isFinite) :
    ∃ c rest, (floatText x).toList = c :: rest ∧ leadOf c = '0' := by
  rw [floatText, if_pos h, Layout.text_eq (Layout.not_isNaN_of_isFinite h)]
  by_cases hsign : x.negative
  · rw [if_pos hsign]
    exact ⟨'-', _, String.toList_append, rfl⟩
  · rw [if_neg hsign, String.empty_append]
    obtain ⟨v, hspells, -⟩ := Layout.spells_body (l := floatLayout) h
    obtain ⟨c, hc, hdigit⟩ := hspells.starts
    obtain ⟨rest, hrest⟩ := List.head?_eq_some_iff.mp hc
    refine ⟨c, rest, hrest, ?_⟩
    simp [leadOf, startsNumber, hdigit]

theorem lead_compact {v : Json} (h : v.AllFinite) :
    ∃ c rest, v.compact = c :: rest ∧ leadOf c = v.lead := by
  match v with
  | .null | .bool true | .bool false | .str _ | .arr _ | .obj _ => exact ⟨_, _, rfl, rfl⟩
  | .int n => exact leadOf_intText n
  | .float x => exact leadOf_floatText (h x List.mem_cons_self)

theorem lead_eq {v w : Json} {r s : List Char} (hv : v.AllFinite) (hw : w.AllFinite)
    (h : v.compact ++ r = w.compact ++ s) : v.lead = w.lead := by
  obtain ⟨c, rest, hc, hlead⟩ := lead_compact hv
  obtain ⟨c', rest', hc', hlead'⟩ := lead_compact hw
  rw [hc, hc'] at h
  rw [← hlead, ← hlead', (List.cons.inj h).1]

theorem numeral_intText (n : Int) : ∀ c ∈ intText n, isNumeral c := by
  have hdigits : ∀ c ∈ Nat.toDigits 10 n.natAbs, isNumeral c :=
    fun c hc => Layout.isNumeral_of_isDigit (Layout.isDigit_toDigits _ c hc)
  rw [intText]
  split
  · exact List.forall_mem_cons.mpr ⟨rfl, hdigits⟩
  · exact hdigits

theorem numeral_floatText {x : Binary64} (h : x.isFinite) :
    ∀ c ∈ (floatText x).toList, isNumeral c := by
  rw [floatText, if_pos h]
  exact Layout.numeral_text h

theorem toDigits_injective {m n : Nat} (h : Nat.toDigits 10 m = Nat.toDigits 10 n) : m = n := by
  rw [← Layout.ofDigitChars_toDigits m, h, Layout.ofDigitChars_toDigits]

theorem minus_notMem_toDigits (n : Nat) : '-' ∉ Nat.toDigits 10 n := by
  intro h
  exact absurd (Layout.isDigit_toDigits n _ h) (by decide)

theorem intText_injective {m n : Int} (h : intText m = intText n) : m = n := by
  rw [intText, intText] at h
  by_cases hm : m < 0 <;> by_cases hn : n < 0
  · rw [if_pos hm, if_pos hn] at h
    have := toDigits_injective (List.cons.inj h).2
    omega
  · rw [if_pos hm, if_neg hn] at h
    exact absurd (h ▸ List.mem_cons_self) (minus_notMem_toDigits _)
  · rw [if_neg hm, if_pos hn] at h
    exact absurd (h ▸ List.mem_cons_self) (minus_notMem_toDigits _)
  · rw [if_neg hm, if_neg hn] at h
    have := toDigits_injective h
    omega

theorem intText_ne_floatText (n : Int) {x : Binary64} (h : x.isFinite) :
    intText n ≠ (floatText x).toList := by
  intro heq
  rw [floatText, if_pos h] at heq
  obtain ⟨c, hc, hmark⟩ := Layout.marked_text (l := floatLayout) rfl h
  rw [← heq, intText] at hc
  have hdigit := Layout.isDigit_toDigits n.natAbs
  split at hc
  · rcases List.mem_cons.mp hc with rfl | hc
    · simp at hmark
    · rcases hmark with rfl | rfl <;> exact absurd (hdigit _ hc) (by decide)
  · rcases hmark with rfl | rfl <;> exact absurd (hdigit _ hc) (by decide)

theorem Ends.not_isNumeral {rest : List Char} (h : Ends rest) :
    ∀ c ∈ rest.head?, isNumeral c = false := by
  intro c hc
  rcases h c hc with rfl | rfl | rfl <;> rfl

theorem numerals_append {cs ds r s : List Char} (hcs : ∀ c ∈ cs, isNumeral c)
    (hds : ∀ c ∈ ds, isNumeral c) (hr : Ends r) (hs : Ends s) (h : cs ++ r = ds ++ s) :
    cs = ds ∧ r = s := by
  obtain ⟨htake, hdrop⟩ := Lexer.span_append hcs hr.not_isNumeral
  obtain ⟨htake', hdrop'⟩ := Lexer.span_append hds hs.not_isNumeral
  rw [h] at htake hdrop
  exact ⟨htake.symm.trans htake', hdrop.symm.trans hdrop'⟩

theorem quote_append {a b : String} {r s : List Char} (h : quote a ++ r = quote b ++ s) :
    a = b ∧ r = s := by
  simp only [quote, List.cons_append, List.append_assoc, List.nil_append, List.cons.injEq,
    true_and] at h
  have hscan := scanString_quote a r
  rw [h, scanString_quote, Option.some.injEq, Prod.mk.injEq] at hscan
  exact ⟨hscan.1.symm, hscan.2.symm⟩

section tells

variable {x : Binary64} {items : List Json} {fields : List (String × Json)}

theorem tells_int (n : Int) : Tells AllFinite compact (.int n) := by
  intro w r s hw hr hs h
  have hlead := lead_eq (v := .int n) (List.forall_mem_nil _) hw h
  cases w with
  | int m =>
      obtain ⟨htext, hrs⟩ := numerals_append (numeral_intText n) (numeral_intText m) hr hs h
      exact ⟨congrArg _ (intText_injective htext), hrs⟩
  | float y =>
      have hy : y.isFinite := hw y List.mem_cons_self
      have htext := numerals_append (numeral_intText n) (numeral_floatText hy) hr hs h
      exact absurd htext.1 (intText_ne_floatText n hy)
  | bool b => cases b <;> cases hlead
  | _ => cases hlead

theorem tells_float (hx : x.isFinite) : Tells AllFinite compact (.float x) := by
  intro w r s hw hr hs h
  have hlead := lead_eq (v := .float x) (List.forall_mem_singleton.mpr hx) hw h
  cases w with
  | int m =>
      have htext := numerals_append (numeral_floatText hx) (numeral_intText m) hr hs h
      exact absurd htext.1.symm (intText_ne_floatText m hx)
  | float y =>
      have hy : y.isFinite := hw y List.mem_cons_self
      obtain ⟨htext, hrs⟩ := numerals_append (numeral_floatText hx) (numeral_floatText hy) hr hs h
      exact ⟨congrArg _ (eq_of_floatText hx hy (String.toList_inj.mp htext)), hrs⟩
  | bool b => cases b <;> cases hlead
  | _ => cases hlead

theorem tells_null : Tells AllFinite compact .null := by
  intro w r s hw hr hs h
  have hlead := lead_eq (v := .null) (List.forall_mem_nil _) hw h
  cases w with
  | null => exact ⟨rfl, List.append_cancel_left h⟩
  | bool b => cases b <;> cases hlead
  | _ => cases hlead

theorem tells_bool (b : Bool) : Tells AllFinite compact (.bool b) := by
  intro w r s hw hr hs h
  have hlead := lead_eq (v := .bool b) (List.forall_mem_nil _) hw h
  cases w with
  | bool b' =>
      cases b <;> cases b'
      · exact ⟨rfl, List.append_cancel_left h⟩
      · cases hlead
      · cases hlead
      · exact ⟨rfl, List.append_cancel_left h⟩
  | _ => cases b <;> cases hlead

theorem tells_str (a : String) : Tells AllFinite compact (.str a) := by
  intro w r s hw hr hs h
  have hlead := lead_eq (v := .str a) (List.forall_mem_nil _) hw h
  cases w with
  | str b =>
      obtain ⟨rfl, hrs⟩ := quote_append h
      exact ⟨rfl, hrs⟩
  | bool b => cases b <;> cases hlead
  | _ => cases hlead

theorem allFinite_arr : (Json.arr items).AllFinite ↔ ∀ v ∈ items, v.AllFinite := by
  rw [AllFinite, floats]
  induction items with
  | nil => simp [floatsItems]
  | cons v rest ih => rw [floatsItems, List.forall_mem_append, List.forall_mem_cons, ih, AllFinite]

theorem allFinite_obj : (Json.obj fields).AllFinite ↔ ∀ f ∈ fields, f.2.AllFinite := by
  rw [AllFinite, floats]
  induction fields with
  | nil => simp [floatsFields]
  | cons f rest ih => rw [floatsFields, List.forall_mem_append, List.forall_mem_cons, ih, AllFinite]

theorem compactItems_eq (items : List Json) : compactItems items = separated compact items := by
  cases items with
  | nil => rfl
  | cons v rest => exact compactItems_cons v rest

theorem compactFields_eq (fields : List (String × Json)) :
    compactFields fields = separated fieldText fields := by
  cases fields with
  | nil => rfl
  | cons f rest => exact compactFields_cons f rest

theorem starts_compact {v : Json} (h : v.AllFinite) (rest : List Char) :
    (v.compact ++ rest).head? ≠ some ']' := by
  obtain ⟨c, cs, hcs, hlead⟩ := lead_compact h
  rw [hcs]
  rintro ⟨⟩
  match v with
  | .null | .bool true | .bool false | .int _ | .float _ | .str _ | .arr _ | .obj _ => cases hlead

theorem tells_arr (hfinite : ∀ v ∈ items, v.AllFinite)
    (htells : ∀ v ∈ items, Tells AllFinite compact v) : Tells AllFinite compact (.arr items) := by
  intro w r s hw hr hs h
  have hlead := lead_eq (v := .arr items) (allFinite_arr.mpr hfinite) hw h
  cases w with
  | arr items' =>
      simp only [compact, compactItems_eq, List.cons_append, List.append_assoc,
        List.nil_append, List.cons.injEq, true_and] at h
      obtain ⟨rfl, hrs⟩ := tells_separated (.inl rfl) (fun v hv => starts_compact hv)
        (fun v hv => ⟨hfinite v hv, htells v hv⟩) (allFinite_arr.mp hw) h
      exact ⟨rfl, hrs⟩
  | bool b => cases b <;> cases hlead
  | _ => cases hlead

theorem tells_field {f : String × Json} (h : Tells AllFinite compact f.2) :
    Tells (fun g => g.2.AllFinite) fieldText f := by
  intro g r s hg hr hs heq
  rw [fieldText, fieldText, List.append_assoc, List.append_assoc] at heq
  obtain ⟨hname, hmore⟩ := quote_append heq
  obtain ⟨hvalue, hrs⟩ := h g.2 r s hg hr hs (List.cons.inj hmore).2
  exact ⟨Prod.ext hname hvalue, hrs⟩

theorem tells_obj (hfinite : ∀ f ∈ fields, f.2.AllFinite)
    (htells : ∀ f ∈ fields, Tells AllFinite compact f.2) :
    Tells AllFinite compact (.obj fields) := by
  intro w r s hw hr hs h
  have hlead := lead_eq (v := .obj fields) (allFinite_obj.mpr hfinite) hw h
  cases w with
  | obj fields' =>
      simp only [compact, compactFields_eq, List.cons_append, List.append_assoc,
        List.nil_append, List.cons.injEq, true_and] at h
      obtain ⟨rfl, hrs⟩ := tells_separated (.inr rfl) (fun f _ rest => by simp [fieldText, quote])
        (fun f hf => ⟨hfinite f hf, tells_field (htells f hf)⟩) (allFinite_obj.mp hw) h
      exact ⟨rfl, hrs⟩
  | bool b => cases b <;> cases hlead
  | _ => cases hlead

end tells

mutual

/-- The text of a value tells which it is, whatever follows it inside a document. -/
theorem tells_compact : ∀ v : Json, v.AllFinite → Tells AllFinite compact v
  | .null, _ => tells_null
  | .bool b, _ => tells_bool b
  | .int n, _ => tells_int n
  | .float x, h => tells_float (h x List.mem_cons_self)
  | .str s, _ => tells_str s
  | .arr items, h => tells_arr (allFinite_arr.mp h) (tells_items items (allFinite_arr.mp h))
  | .obj fields, h => tells_obj (allFinite_obj.mp h) (tells_fields fields (allFinite_obj.mp h))

theorem tells_items : ∀ items : List Json, (∀ v ∈ items, v.AllFinite) →
    ∀ v ∈ items, Tells AllFinite compact v
  | [], _ => List.forall_mem_nil _
  | v :: rest, h => by
      rw [List.forall_mem_cons] at h ⊢
      exact ⟨tells_compact v h.1, tells_items rest h.2⟩

theorem tells_fields : ∀ fields : List (String × Json), (∀ f ∈ fields, f.2.AllFinite) →
    ∀ f ∈ fields, Tells AllFinite compact f.2
  | [], _ => List.forall_mem_nil _
  | (_, v) :: rest, h => by
      rw [List.forall_mem_cons] at h ⊢
      exact ⟨tells_compact v h.1, tells_fields rest h.2⟩

end

theorem compactText_injective {v w : Json} (hv : v.AllFinite) (hw : w.AllFinite)
    (h : v.compactText = w.compactText) : v = w := by
  have hends : Ends [] := fun _ hc => nomatch hc
  have htext : v.compact ++ [] = w.compact ++ [] := by
    rw [List.append_nil, List.append_nil]
    exact String.ofList_injective h
  exact (tells_compact v hv w [] [] hw hends hends htext).1

end DiamondScript.Json
