import DiamondScript.Proofs.JsonText
import DiamondScript.Proofs.Packing
import DiamondScript.Template.Program

namespace DiamondScript

namespace Code

section

variable {before after : String} (hbefore : ∀ c ∈ before.toList, Text.isBlank c)
  (hafter : ∀ c ∈ after.toList, Text.isBlank c)

include hbefore hafter

/-- The text of a code is found whichever way it was packed, and whatever blanks stand around it. -/
theorem openText_encode {packed : List UInt8} {text : String}
    (h : Gzip.unpack packed = .ok (Text.utf8Bytes text)) :
    openText (Text.trim (before ++ String.ofList (Base64.encode packed) ++ after)) = .ok text := by
  have hplain := Base64.encode_plain packed
  have hjoin : before ++ String.ofList (Base64.encode packed) ++ after =
      String.ofList (before.toList ++ (Base64.encode packed ++ after.toList)) := by
    simp [String.append_assoc]
  rw [hjoin, Text.trim_append hbefore hafter fun c hc => (hplain c hc).2, openText,
    Text.utf8Bytes_plain fun c hc => (hplain c hc).1, Base64.decode_bytes_encode]
  have hunpack : unpackText packed = .ok text :=
    bind_eq_ok.mpr ⟨_, h, by rw [Text.ofUtf8?_utf8Bytes]⟩
  change (unpackText packed).mapError _ = _
  rw [hunpack]
  rfl

theorem decode_packed {packed : List UInt8} {v : Json}
    (h : Gzip.unpack packed = .ok (Text.utf8Bytes v.compactText))
    (hparse : Json.parse? v.compactText = some v) :
    decode (before ++ String.ofList (Base64.encode packed) ++ after) = .ok v := by
  refine bind_eq_ok.mpr ⟨_, openText_encode hbefore hafter h, ?_⟩
  rw [hparse]

end

end Code

namespace Json

section

variable {fields sorted : List (String × Json)} {name : String} {value : Json}

theorem mem_insertField {f : String × Json} (h : f ∈ insertField name value sorted) :
    f = (name, value) ∨ f ∈ sorted := by
  induction sorted with
  | nil => exact .inl (List.mem_singleton.mp h)
  | cons g sorted ih =>
      rw [insertField] at h
      split at h
      · exact List.mem_cons.mp h
      · split at h
        · rcases List.mem_cons.mp h with h | h
          · exact .inl h
          · exact .inr (List.mem_cons_of_mem _ h)
        · rcases List.mem_cons.mp h with h | h
          · exact .inr (h ▸ List.mem_cons_self)
          · exact (ih h).imp_right (List.mem_cons_of_mem _)

theorem ordered_insertField (h : Ordered sorted) : Ordered (insertField name value sorted) := by
  induction sorted with
  | nil => exact List.pairwise_singleton _ _
  | cons g sorted ih =>
      obtain ⟨hg, hsorted⟩ := List.pairwise_cons.mp h
      rw [insertField]
      split
      · next hlt =>
          refine List.pairwise_cons.mpr ⟨?_, h⟩
          exact List.forall_mem_cons.mpr ⟨hlt, fun f hf => lt_trans hlt (hg f hf)⟩
      · next hge =>
          split
          · next heq =>
              subst heq
              exact List.pairwise_cons.mpr ⟨hg, hsorted⟩
          · next hne =>
              refine List.pairwise_cons.mpr ⟨fun f hf => ?_, ih hsorted⟩
              rcases mem_insertField hf with rfl | hf
              · exact lt_of_le_of_ne (le_of_not_gt hge) (Ne.symm hne)
              · exact hg f hf

theorem exists_object (fields : List (String × Json)) :
    ∃ sorted, object fields = .obj sorted ∧ Ordered sorted ∧ ∀ f ∈ sorted, f ∈ fields := by
  have hfold (done : List (String × Json)) : ∀ rest : List (String × Json), Ordered done →
      Ordered (rest.foldl (fun sorted (f : String × Json) => insertField f.1 f.2 sorted) done) ∧
      ∀ f ∈ rest.foldl (fun sorted (f : String × Json) => insertField f.1 f.2 sorted) done,
        f ∈ done ∨ f ∈ rest := by
    intro rest hdone
    induction rest generalizing done with
    | nil => exact ⟨hdone, fun f hf => .inl hf⟩
    | cons g rest ih =>
        obtain ⟨hordered, hmem⟩ := ih (insertField g.1 g.2 done) (ordered_insertField hdone)
        refine ⟨hordered, fun f hf => ?_⟩
        rcases hmem f hf with h | h
        · rcases mem_insertField h with rfl | h
          · exact .inr List.mem_cons_self
          · exact .inl h
        · exact .inr (List.mem_cons_of_mem _ h)
  obtain ⟨hordered, hmem⟩ := hfold [] fields List.Pairwise.nil
  exact ⟨_, rfl, hordered, fun f hf => (hmem f hf).resolve_left List.not_mem_nil⟩

def Shaped (depth : Nat) (v : Json) : Prop := v.Proper ∧ v.depth ≤ depth

theorem shaped_arr {d : Nat} {items : List Json} (h : ∀ v ∈ items, Shaped d v) :
    Shaped (d + 1) (.arr items) := by
  have hitems : ProperItems items ∧ depthItems items ≤ d := by
    induction items with
    | nil => exact ⟨trivial, Nat.zero_le d⟩
    | cons v items ih =>
        rw [List.forall_mem_cons] at h
        obtain ⟨hproper, hdepth⟩ := ih h.2
        exact ⟨⟨h.1.1, hproper⟩, Nat.max_le.mpr ⟨h.1.2, hdepth⟩⟩
  exact ⟨hitems.1, Nat.succ_le_succ hitems.2⟩

theorem shaped_object {d : Nat} (h : ∀ f ∈ fields, Shaped d f.2) :
    Shaped (d + 1) (object fields) := by
  obtain ⟨sorted, hobject, hordered, hmem⟩ := exists_object fields
  have hsorted : ∀ f ∈ sorted, Shaped d f.2 := fun f hf => h f (hmem f hf)
  have hfields : ProperFields sorted ∧ depthFields sorted ≤ d := by
    clear hordered hmem hobject
    induction sorted with
    | nil => exact ⟨trivial, Nat.zero_le d⟩
    | cons f sorted ih =>
        rw [List.forall_mem_cons] at hsorted
        obtain ⟨hproper, hdepth⟩ := ih hsorted.2
        exact ⟨⟨hsorted.1.1, hproper⟩, Nat.max_le.mpr ⟨hsorted.1.2, hdepth⟩⟩
  rw [hobject]
  exact ⟨⟨hordered, hfields.1⟩, Nat.succ_le_succ hfields.2⟩

end

theorem shaped_str (d : Nat) (s : String) : Shaped d (.str s) := ⟨trivial, Nat.zero_le d⟩

theorem shaped_bool (d : Nat) (b : Bool) : Shaped d (.bool b) := ⟨trivial, Nat.zero_le d⟩

end Json

open Json

theorem shaped_component (d : Nat) (x : Binary64) : Shaped d (ItemKind.component x) := by
  unfold ItemKind.component
  split <;> exact ⟨trivial, Nat.zero_le d⟩

theorem shaped_data (kind : ItemKind) : Shaped 1 kind.data := by
  cases kind <;> refine shaped_object ?_ <;>
    simp [shaped_str, shaped_bool, shaped_component]

theorem shaped_item {item : Item} (h : item.slot < 2 ^ 64) : Shaped 3 item.toJson := by
  refine shaped_object (List.forall_mem_cons.mpr ⟨shaped_object ?_, ?_⟩)
  · simpa [shaped_str] using shaped_data item.kind
  · have hslot : Shaped 2 (.nat item.slot) := ⟨⟨by omega, by omega⟩, Nat.zero_le 2⟩
    simpa using hslot

namespace Codeline

def WordSlots (schema : Schema) (line : Codeline) : Prop :=
  ∀ b ∈ line.blocks, ∀ items, b.items schema = .ok items → ∀ item ∈ items, item.slot < 2 ^ 64

end Codeline

theorem shaped_block {schema : Schema} {b : Codeblock} {j : Json} (h : b.toJson schema = .ok j)
    (hslots : ∀ items, b.items schema = .ok items → ∀ item ∈ items, item.slot < 2 ^ 64) :
    Shaped 6 j := by
  obtain ⟨items, hitems, h⟩ := bind_eq_ok.mp h
  cases h
  have hargs : Shaped 5 (.object [("items", .arr (items.map Item.toJson))]) := by
    refine shaped_object (List.forall_mem_singleton.mpr (shaped_arr ?_))
    rw [List.forall_mem_map]
    exact fun item hitem => shaped_item (hslots items hitems item hitem)
  have hoptional (name : String) (s : Option String) :
      ∀ f ∈ Codeblock.optionalField name s, Shaped 5 f.2 := by
    cases s with
    | none => exact List.forall_mem_nil _
    | some s => exact List.forall_mem_singleton.mpr (shaped_str 5 s)
  refine shaped_object ?_
  simp only [List.forall_mem_append]
  exact ⟨⟨⟨by simp [shaped_str, hargs], hoptional _ _⟩, hoptional _ _⟩, hoptional _ _⟩

theorem shaped_line {schema : Schema} {line : Codeline} {j : Json}
    (h : line.toJson schema = .ok j) (hslots : line.WordSlots schema) : Shaped 8 j := by
  obtain ⟨blocks, hblocks, h⟩ := bind_eq_ok.mp h
  cases h
  refine shaped_object (List.forall_mem_singleton.mpr (shaped_arr fun v hv => ?_))
  obtain ⟨b, hb, hv⟩ := exists_of_mem_mapM hblocks hv
  exact shaped_block hv (hslots b hb)

theorem floats_of_mem {items : List Json} {v : Json} (hv : v ∈ items) {x : Binary64}
    (hx : x ∈ v.floats) : x ∈ (Json.arr items).floats := by
  induction hv with
  | head rest => exact List.mem_append_left _ hx
  | tail w _ ih => exact List.mem_append_right _ ih

theorem decode_line {schema : Schema} {line : Codeline} {j : Json}
    (h : line.toJson schema = .ok j) (hslots : line.WordSlots schema)
    (hfloats : ∀ x ∈ j.floats, Kept x) {packed : List UInt8}
    (hpacked : Gzip.unpack packed = .ok (Text.utf8Bytes j.compactText)) :
    Code.decode (String.ofList (Base64.encode packed)) = .ok j := by
  obtain ⟨hproper, hdepth⟩ := shaped_line h hslots
  have hparse := parse?_compactText hproper (Nat.le_trans hdepth (by decide)) hfloats
  have hblank : ∀ c ∈ "".toList, Text.isBlank c := nofun
  simpa using Code.decode_packed hblank hblank hpacked hparse

theorem encodeAll_eq (schema : Schema) (program : Program) :
    program.encodeAll schema =
      (program.lines.mapM (Codeline.toJson schema)).map (List.map Code.encode) := by
  rw [Program.encodeAll]
  induction program.lines with
  | nil => rfl
  | cons line rest ih =>
      rw [List.mapM_cons, List.mapM_cons, ih, Codeline.encode]
      cases line.toJson schema with
      | error e => rfl
      | ok v => cases rest.mapM (Codeline.toJson schema) <;> rfl

/-- Decoding undoes encoding: for every value, whichever way it is packed and whatever blanks stand
around its code, and so for the lines of every program, whose codes hold what its JSON lists. -/
theorem decode_encode :
    (∀ v : Json, v.Proper → v.depth ≤ maxDepth → (∀ x ∈ v.floats, Kept x) →
      ∀ before after : String, (∀ c ∈ before.toList, Text.isBlank c) →
        (∀ c ∈ after.toList, Text.isBlank c) →
        Code.decode (before ++ Code.encode v ++ after) = .ok v ∧
        ∀ packed, Gzip.unpack packed = .ok (Text.utf8Bytes v.compactText) →
          Code.decode (before ++ String.ofList (Base64.encode packed) ++ after) = .ok v) ∧
    (∀ (schema : Schema) (line : Codeline) (j : Json), line.toJson schema = .ok j →
      line.WordSlots schema → (∀ x ∈ j.floats, Kept x) →
        (∃ code, line.encode schema = .ok code ∧ Code.decode code = .ok j) ∧
        ∀ packed, Gzip.unpack packed = .ok (Text.utf8Bytes j.compactText) →
          Code.decode (String.ofList (Base64.encode packed)) = .ok j) ∧
    (∀ (schema : Schema) (program : Program),
      (∀ e, program.encodeAll schema = .error e ↔ program.toJson schema = .error e) ∧
      ∀ j, program.toJson schema = .ok j → (∀ line ∈ program.lines, line.WordSlots schema) →
        (∀ x ∈ j.floats, Kept x) →
          ∃ codes values, program.encodeAll schema = .ok codes ∧ j = .arr values ∧
            List.Forall₂ (fun code v => Code.decode code = .ok v) codes values ∧
            ∀ v ∈ values, ∀ packed, Gzip.unpack packed = .ok (Text.utf8Bytes v.compactText) →
              Code.decode (String.ofList (Base64.encode packed)) = .ok v) := by
  refine ⟨?_, ?_, ?_⟩
  · intro v hproper hdepth hfloats before after hbefore hafter
    have hparse := parse?_compactText hproper hdepth hfloats
    exact ⟨Code.decode_packed hbefore hafter (Gzip.unpack_pack _) hparse,
      fun packed hpacked => Code.decode_packed hbefore hafter hpacked hparse⟩
  · intro schema line j hj hslots hfloats
    have hread := @decode_line schema line j hj hslots hfloats
    exact ⟨⟨Code.encode j, bind_eq_ok.mpr ⟨j, hj, rfl⟩, hread (Gzip.unpack_pack _)⟩,
      fun packed => hread⟩
  · intro schema program
    rw [encodeAll_eq, Program.toJson]
    cases hvalues : program.lines.mapM (Codeline.toJson schema) with
    | error e =>
        refine ⟨fun e' => ⟨?_, ?_⟩, nofun⟩
        · rintro ⟨⟩
          rfl
        · rintro ⟨⟩
          rfl
    | ok values =>
        refine ⟨fun e => ⟨nofun, nofun⟩, ?_⟩
        rintro j ⟨⟩ hslots hfloats
        have hread : ∀ v ∈ values, ∀ packed,
            Gzip.unpack packed = .ok (Text.utf8Bytes v.compactText) →
              Code.decode (String.ofList (Base64.encode packed)) = .ok v := by
          intro v hv packed
          obtain ⟨line, hline, hj⟩ := exists_of_mem_mapM hvalues hv
          exact decode_line hj (hslots line hline) fun x hx => hfloats x (floats_of_mem hv hx)
        refine ⟨values.map Code.encode, values, rfl, rfl, ?_, hread⟩
        rw [List.forall₂_map_left_iff, List.forall₂_same]
        exact fun v hv => hread v hv _ (Gzip.unpack_pack _)

/-- A quote, a backslash, a control character, a character of four bytes, a signed number, the
largest number and a float; blanks around the code; and a line with a vector. -/
theorem decode_encode_escapes :
    let half : Binary64 := .ofPattern false 0x3FE0000000000000
    let v : Json := .obj [("\"\\\x01", .arr [.int (-3), .int 18446744073709551615]),
      ("😀", .float half)]
    let catalog : Catalog := ⟨[⟨"SET VARIABLE", "=", [], []⟩], [⟨"SET VARIABLE", "set_var"⟩]⟩
    let schema := Schema.ofCatalog catalog
    let block : Codeblock := ⟨"set_var", none, some "=", [⟨0, .vector half half half⟩], none, []⟩
    let line : Codeline := ⟨[block]⟩
    v.Proper ∧ v.depth ≤ maxDepth ∧ (∀ x ∈ v.floats, Kept x) ∧
      Code.decode ("\t" ++ Code.encode v ++ "\u2003\n") = .ok v ∧
      ∃ j code, line.toJson schema = .ok j ∧ line.encode schema = .ok code ∧
        Code.decode code = .ok j := by
  intro half v catalog schema block line
  have hkept : Kept half := by decide +kernel
  have hproper : v.Proper :=
    ⟨List.pairwise_pair.mpr (by decide +kernel),
      ⟨⟨by decide, by decide⟩, ⟨by decide, by decide⟩, trivial⟩, trivial, trivial⟩
  have hdepth : v.depth ≤ maxDepth := by decide
  have hfloats : ∀ x ∈ v.floats, Kept x := by
    simpa [v, floats, floatsItems, floatsFields] using hkept
  have hbefore : ∀ c ∈ "\t".toList, Text.isBlank c := List.all_eq_true.mp rfl
  have hafter : ∀ c ∈ "\u2003\n".toList, Text.isBlank c := List.all_eq_true.mp rfl
  have hdecode := (decode_encode.1 v hproper hdepth hfloats "\t" "\u2003\n" hbefore hafter).1
  obtain ⟨j, hj, hvector⟩ : ∃ j, line.toJson schema = .ok j ∧ j.floats = [half, half, half] :=
    ⟨_, by with_unfolding_all rfl, rfl⟩
  have hslots : line.WordSlots schema := by
    have hitems : block.items schema = .ok [⟨0, .vector half half half⟩] := by
      with_unfolding_all rfl
    refine List.forall_mem_singleton.mpr fun items h => ?_
    cases hitems.symm.trans h
    simp
  have hline : ∀ x ∈ j.floats, Kept x := by
    simpa [hvector] using hkept
  obtain ⟨⟨code, hcode⟩, -⟩ := decode_encode.2.1 schema line j hj hslots hline
  exact ⟨hproper, hdepth, hfloats, hdecode, j, code, hj, hcode⟩

end DiamondScript
