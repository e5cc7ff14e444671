import DiamondScript.Proofs.Outcome
import DiamondScript.Template.Code
import Mathlib.Algebra.Group.Nat.Defs

namespace DiamondScript

namespace Base64

theorem value?_letter : ∀ n < 64, value? (UInt8.ofNat (letter n).toNat) = some n := by
  decide +kernel

theorem letter_ne_padding : ∀ n < 64, UInt8.ofNat (letter n).toNat ≠ padding := by
  decide +kernel

theorem letter_plain : ∀ n < 64, (letter n).toNat < 128 ∧ Text.isBlank (letter n) = false := by
  decide +kernel

def bytes (cs : List Char) : List UInt8 := cs.map fun c => UInt8.ofNat c.toNat

theorem values_letters (ns : List Nat) (h : ∀ n ∈ ns, n < 64) (offset : Nat) :
    values offset (bytes (ns.map letter)) = .ok ns := by
  induction ns generalizing offset with
  | nil => rfl
  | cons n ns ih =>
      rw [List.forall_mem_cons] at h
      have hrest := ih h.2 (offset + 1)
      simp only [bytes, List.map_cons, values, value?_letter n h.1] at hrest ⊢
      rw [hrest]
      rfl

theorem ending_letters (base : Nat) (vs : List Nat) (h : ∀ n ∈ vs, n < 64) (rest : List UInt8)
    (i : Nat) (read : List Nat) (last : UInt8) :
    ∃ last', ending base i ⟨read, last, 0⟩ (bytes (vs.map letter) ++ rest) =
      ending base (i + vs.length) ⟨read ++ vs, last', 0⟩ rest := by
  induction vs generalizing i read last with
  | nil => exact ⟨last, by simp [bytes]⟩
  | cons v vs ih =>
      rw [List.forall_mem_cons] at h
      obtain ⟨last', hlast⟩ := ih h.2 (i + 1) (read ++ [v]) (UInt8.ofNat (letter v).toNat)
      refine ⟨last', ?_⟩
      simp only [bytes, List.map_cons, List.cons_append, ending, letter_ne_padding v h.1,
        value?_letter v h.1, if_false, Nat.lt_irrefl] at hlast ⊢
      rw [hlast, List.length_cons, List.append_assoc, Nat.add_right_comm, Nat.add_assoc]
      rfl

theorem ending_padding (base pad : Nat) {i : Nat} (hi : 2 ≤ i) (e : Ending) :
    ending base i e (List.replicate pad padding) = .ok { e with padding := e.padding + pad } := by
  induction pad generalizing i e with
  | zero => rfl
  | succ pad ih =>
      rw [List.replicate_succ, ending, if_pos rfl, if_neg (Nat.not_lt.mpr hi),
        ih (Nat.le_succ_of_le hi), Nat.add_assoc, Nat.add_comm 1 pad]

/-- How data is spelled: letters in groups of four, then a last group of letters and padding. -/
structure Spelled (data : List UInt8) (body last : List Nat) (pad : Nat) : Prop where
  spelling : encode data = body.map letter ++ (last.map letter ++ List.replicate pad '=')
  body_lt : ∀ n ∈ body, n < 64
  last_lt : ∀ n ∈ last, n < 64
  grouped : body.length % 4 = 0
  filled : pad + last.length = 4
  enough : 2 ≤ last.length
  clean : cleanTail last = true
  meaning : bytesOf body ++ bytesOf last = data

theorem ofNat_eq {n : Nat} {b : UInt8} (h : n % 256 = b.toNat) : UInt8.ofNat n = b := by
  apply UInt8.toNat_inj.mp
  rw [UInt8.toNat_ofNat']
  exact h

theorem exists_spelled : ∀ data : List UInt8, data ≠ [] →
    ∃ body last pad, Spelled data body last pad
  | [a], _ => by
      have ha := a.toNat_lt
      refine ⟨[], [a.toNat * 16 / 64, a.toNat * 16 % 64], 2, rfl, by simp, ?_, rfl, rfl, by simp,
        ?_, ?_⟩
      · simp
        omega
      · simp [cleanTail]
      · simp only [bytesOf, List.nil_append, List.cons.injEq, and_true]
        exact ofNat_eq (by omega)
  | [a, b], _ => by
      have ha := a.toNat_lt
      have hb := b.toNat_lt
      refine ⟨[], [(a.toNat * 256 + b.toNat) * 4 / 4096, (a.toNat * 256 + b.toNat) * 4 / 64 % 64,
        (a.toNat * 256 + b.toNat) * 4 % 64], 1, rfl, by simp, ?_, rfl, rfl, by simp, ?_, ?_⟩
      · simp
        omega
      · simp [cleanTail]
      · simp only [bytesOf, List.nil_append, List.cons.injEq, and_true]
        exact ⟨ofNat_eq (by omega), ofNat_eq (by omega)⟩
  | a :: b :: c :: rest, _ => by
      have ha := a.toNat_lt
      have hb := b.toNat_lt
      have hc := c.toNat_lt
      let n := (a.toNat * 256 + b.toNat) * 256 + c.toNat
      let group := [n / 262144, n / 4096 % 64, n / 64 % 64, n % 64]
      have hgroup : ∀ v ∈ group, v < 64 := by
        simp [group, n]
        omega
      have hbytes (vs : List Nat) : bytesOf (group ++ vs) = a :: b :: c :: bytesOf vs := by
        simp only [group, n, List.cons_append, List.nil_append, bytesOf, List.cons.injEq, and_true]
        exact ⟨ofNat_eq (by omega), ofNat_eq (by omega), ofNat_eq (by omega)⟩
      by_cases hrest : rest = []
      · subst hrest
        refine ⟨[], group, 0, rfl, by simp, hgroup, rfl, rfl, by simp [group], rfl, ?_⟩
        exact hbytes []
      · obtain ⟨body, last, pad, h⟩ := exists_spelled rest hrest
        refine ⟨group ++ body, last, pad, ?_, ?_, h.last_lt, ?_, h.filled, h.enough, h.clean, ?_⟩
        · rw [encode, h.spelling]
          rfl
        · exact List.forall_mem_append.mpr ⟨hgroup, h.body_lt⟩
        · have := h.grouped
          simp [group]
          omega
        · rw [hbytes, List.cons_append, List.cons_append, List.cons_append, h.meaning]

theorem forall_mem_encode {P : Char → Prop} (hletter : ∀ n < 64, P (letter n)) (hpad : P '=')
    (data : List UInt8) : ∀ c ∈ encode data, P c := by
  by_cases hdata : data = []
  · subst hdata
    exact List.forall_mem_nil _
  · obtain ⟨body, last, pad, h⟩ := exists_spelled data hdata
    rw [h.spelling]
    simp only [List.forall_mem_append, List.forall_mem_map, List.mem_replicate, and_imp]
    refine ⟨?_, ?_, ?_⟩
    · intro n hn
      exact hletter n (h.body_lt n hn)
    · intro n hn
      exact hletter n (h.last_lt n hn)
    · rintro c - rfl
      exact hpad

theorem encode_plain (data : List UInt8) :
    ∀ c ∈ encode data, c.toNat < 128 ∧ Text.isBlank c = false :=
  forall_mem_encode letter_plain (by decide) data

theorem checkLast_of_grouped {input : List UInt8} (h : input.length % 4 = 0) :
    checkLast input = .ok () := by
  unfold checkLast
  split
  · rw [if_neg (by omega)]
  · rfl

theorem decode_bytes_encode (data : List UInt8) : decode (bytes (encode data)) = .ok data := by
  by_cases hdata : data = []
  · subst hdata
    rfl
  · obtain ⟨body, last, pad, h⟩ := exists_spelled data hdata
    have hfilled := h.filled
    have hgrouped := h.grouped
    have hsplit : bytes (encode data) = bytes (body.map letter) ++
        (bytes (last.map letter) ++ List.replicate pad padding) := by
      simp only [h.spelling, bytes, List.map_append, List.map_replicate]
      rfl
    have hbody : (bytes (body.map letter)).length = body.length := by simp [bytes]
    have hlength : (bytes (encode data)).length = body.length + 4 := by
      rw [hsplit, List.length_append, hbody]
      simp only [bytes, List.length_map, List.length_append, List.length_replicate]
      omega
    have htake : (bytes (encode data)).take body.length = bytes (body.map letter) := by
      rw [hsplit, ← hbody, List.take_left]
    have hdrop : (bytes (encode data)).drop body.length =
        bytes (last.map letter) ++ List.replicate pad padding := by
      rw [hsplit, ← hbody, List.drop_left]
    obtain ⟨symbol, hending⟩ := ending_letters body.length last h.last_lt
      (List.replicate pad padding) 0 [] 0
    rw [ending_padding body.length pad (by have := h.enough; omega), Nat.zero_add,
      List.nil_append] at hending
    have hcheck : checkEnding body.length (body.length + 4) ⟨last, symbol, pad⟩ = .ok () := by
      have := h.enough
      rw [checkEnding, if_neg (by simp; omega), if_neg (by simp; omega), if_pos h.clean]
    rw [decode, hlength, if_pos (by omega)]
    dsimp only
    rw [Nat.add_sub_cancel, htake, hdrop]
    refine bind_eq_ok.mpr ⟨(), checkLast_of_grouped (by omega), ?_⟩
    refine bind_eq_ok.mpr ⟨body, values_letters body h.body_lt 0, ?_⟩
    refine bind_eq_ok.mpr ⟨⟨last, symbol, pad⟩, hending, ?_⟩
    exact bind_eq_ok.mpr ⟨(), hcheck, congrArg Except.ok h.meaning⟩

end Base64

namespace Gzip

theorem length_littleEndian (n v : Nat) : (littleEndian n v).length = n := by
  induction n generalizing v with
  | zero => rfl
  | succ n ih => rw [littleEndian, List.length_cons, ih]

theorem natOfBytes_littleEndian (n v : Nat) : natOfBytes (littleEndian n v) = v % 256 ^ n := by
  induction n generalizing v with
  | zero => rw [littleEndian, natOfBytes, Nat.pow_zero, Nat.mod_one]
  | succ n ih =>
      rw [littleEndian, natOfBytes, ih, UInt8.toNat_ofNat', Nat.pow_succ 256 n, Nat.mul_comm _ 256,
        Nat.mod_mul]

theorem takeBytes_append {n : Nat} {bytes : List UInt8} (h : bytes.length = n)
    (rest : List UInt8) : takeBytes n (bytes ++ rest) = .ok (bytes, rest) := by
  subst h
  rw [takeBytes, if_neg (by simp), List.take_left, List.drop_left]

theorem readHeader_fixedHeader (rest : List UInt8) :
    readHeader (fixedHeader ++ rest) = .ok rest := by
  have hstart : takeBytes 10 (fixedHeader ++ rest) = .ok (fixedHeader, rest) :=
    takeBytes_append rfl rest
  rw [readHeader, hstart]
  rfl

end Gzip

namespace Inflate

theorem wholeBytes_append {n : Nat} {bytes : List UInt8} (h : bytes.length = n)
    (rest : List UInt8) : wholeBytes n ⟨bytes ++ rest, 0⟩ = .ok (bytes, ⟨rest, 0⟩) := by
  subst h
  simp [wholeBytes]

/-- Bits of a byte that are not used yet are skipped. -/
theorem wholeBytes_inside {n used : Nat} {bytes : List UInt8} (h : bytes.length = n)
    (hused : used ≠ 0) (b : UInt8) (rest : List UInt8) :
    wholeBytes n ⟨b :: (bytes ++ rest), used⟩ = .ok (bytes, ⟨rest, 0⟩) := by
  subst h
  simp [wholeBytes, hused]

theorem stored_block {data : List UInt8} (h : data.length ≤ Gzip.maxStored) (b : UInt8)
    (out : Array UInt8) (rest : List UInt8) :
    stored out ⟨b :: (Gzip.littleEndian 2 data.length ++
      Gzip.littleEndian 2 (Gzip.maxStored - data.length) ++ (data ++ rest)), 3⟩ =
        .ok (out ++ data.toArray, ⟨rest, 0⟩) := by
  have hsizes : wholeBytes 4 ⟨b :: (Gzip.littleEndian 2 data.length ++
      Gzip.littleEndian 2 (Gzip.maxStored - data.length) ++ (data ++ rest)), 3⟩ = _ :=
    wholeBytes_inside rfl (by decide) b _
  have hlength : (UInt8.ofNat data.length).toNat +
      256 * (UInt8.ofNat (data.length / 256)).toNat = data.length := by
    simp only [UInt8.toNat_ofNat', Gzip.maxStored] at h ⊢
    omega
  have hcheck : ¬ (data.length + ((UInt8.ofNat (Gzip.maxStored - data.length)).toNat +
      256 * (UInt8.ofNat ((Gzip.maxStored - data.length) / 256)).toNat) ≠ 65535) := by
    simp only [UInt8.toNat_ofNat', Gzip.maxStored] at h ⊢
    omega
  rw [stored, run_bind_of_ok hsizes]
  simp only [Gzip.littleEndian, List.cons_append, List.nil_append]
  rw [hlength, if_neg hcheck, run_bind_of_ok (wholeBytes_append rfl rest)]
  rfl

/-- The first byte of a block that is stored: only its lowest bit may be set, for the last one. -/
def mark (final : Bool) : UInt8 := if final then 1 else 0

theorem bit_mark (final : Bool) (rest : List UInt8) :
    bit ⟨mark final :: rest, 0⟩ = .ok (final.toNat, ⟨mark final :: rest, 1⟩) := by
  cases final <;> simp [bit, mark]

theorem bits_mark (final : Bool) (rest : List UInt8) :
    bits 2 ⟨mark final :: rest, 1⟩ = .ok (0, ⟨mark final :: rest, 3⟩) := by
  have hlow : bit ⟨mark final :: rest, 1⟩ = .ok (0, ⟨mark final :: rest, 2⟩) := by
    cases final <;> simp [bit, mark]
  have hhigh : bit ⟨mark final :: rest, 2⟩ = .ok (0, ⟨mark final :: rest, 3⟩) := by
    cases final <;> simp [bit, mark]
  have hbits : bits 1 ⟨mark final :: rest, 2⟩ = .ok (0, ⟨mark final :: rest, 3⟩) := by
    rw [bits, run_bind_of_ok hhigh]
    rfl
  rw [bits, run_bind_of_ok hlow, run_bind_of_ok hbits]
  rfl

theorem blocks_stored {data : List UInt8} (h : data.length ≤ Gzip.maxStored) (final : Bool)
    (limit n : Nat) (out : Array UInt8) (rest : List UInt8) :
    blocks limit (n + 1) out ⟨Gzip.storedBlock final data ++ rest, 0⟩ =
      if final then .ok (out ++ data.toArray, ⟨rest, 0⟩)
      else blocks limit n (out ++ data.toArray) ⟨rest, 0⟩ := by
  have hblock : Gzip.storedBlock final data ++ rest = mark final ::
      (Gzip.littleEndian 2 data.length ++ Gzip.littleEndian 2 (Gzip.maxStored - data.length) ++
        (data ++ rest)) := by
    rw [Gzip.storedBlock, List.cons_append, List.append_assoc]
    rfl
  rw [hblock, blocks, run_bind_of_ok (bit_mark final _), run_bind_of_ok (bits_mark final _)]
  change (stored out >>= fun out => if final.toNat = 1 then pure out else blocks limit n out) _ = _
  rw [run_bind_of_ok (stored_block h _ out rest)]
  cases final <;> rfl

theorem blocks_storedBlocks (limit : Nat) (rest : List UInt8) : ∀ (n k : Nat) (data : List UInt8)
    (out : Array UInt8), data.length ≤ Gzip.maxStored * (k + 1) → k < n →
      blocks limit n out ⟨Gzip.storedBlocks k data ++ rest, 0⟩ =
        .ok (out ++ data.toArray, ⟨rest, 0⟩)
  | n + 1, 0, data, out, h, _ => by
      rw [Gzip.storedBlocks, blocks_stored (by omega), if_pos rfl]
  | n + 1, k + 1, data, out, h, hk => by
      rw [Gzip.storedBlocks]
      split
      · next hone => rw [blocks_stored hone, if_pos rfl]
      · next hmore =>
          have hfirst : (data.take Gzip.maxStored).length ≤ Gzip.maxStored := by
            rw [List.length_take]
            exact Nat.min_le_left _ _
          have hrest : (data.drop Gzip.maxStored).length ≤ Gzip.maxStored * (k + 1) := by
            rw [List.length_drop]
            rw [Nat.mul_succ] at h
            omega
          have hjoin : (data.take Gzip.maxStored).toArray ++ (data.drop Gzip.maxStored).toArray =
              data.toArray := by
            simp
          rw [List.append_assoc, blocks_stored hfirst, if_neg Bool.false_ne_true,
            blocks_storedBlocks limit rest n k _ _ hrest (by omega), Array.append_assoc, hjoin]

theorem le_length_storedBlocks (k : Nat) (data : List UInt8) :
    data.length ≤ (Gzip.storedBlocks k data).length := by
  induction k generalizing data with
  | zero =>
      simp only [Gzip.storedBlocks, Gzip.storedBlock, List.length_append, List.length_cons]
      omega
  | succ k ih =>
      rw [Gzip.storedBlocks]
      split
      · simp only [Gzip.storedBlock, List.length_append, List.length_cons]
        omega
      · have hrest := ih (data.drop Gzip.maxStored)
        simp only [Gzip.storedBlock, List.length_append, List.length_cons, List.length_drop,
          List.length_take] at hrest ⊢
        omega

theorem inflate_storedBlocks (data rest : List UInt8) :
    inflate (Gzip.storedBlocks data.length data ++ rest) = .ok (data, rest) := by
  have hlength := le_length_storedBlocks data.length data
  have hblocks := blocks_storedBlocks
    (8 * (Gzip.storedBlocks data.length data ++ rest).length + 1) rest
    (8 * (Gzip.storedBlocks data.length data ++ rest).length + 1) data.length data #[]
    (by rw [Gzip.maxStored]; omega) (by rw [List.length_append]; omega)
  refine bind_eq_ok.mpr ⟨_, hblocks, ?_⟩
  simp

end Inflate

theorem Gzip.unpack_pack (data : List UInt8) : unpack (pack data) = .ok data := by
  have hcheck : natOfBytes (littleEndian 4 (Crc32.checksum data).toNat) =
      (Crc32.checksum data).toNat := by
    rw [natOfBytes_littleEndian]
    exact Nat.mod_eq_of_lt (Crc32.checksum data).toNat_lt
  have hsize : natOfBytes (littleEndian 4 data.length) = data.length % Nat.pow 2 32 :=
    natOfBytes_littleEndian 4 data.length
  rw [pack, trailer, List.append_assoc]
  refine bind_eq_ok.mpr ⟨_, readHeader_fixedHeader _, ?_⟩
  refine bind_eq_ok.mpr ⟨(data, _), by rw [Inflate.inflate_storedBlocks]; rfl, ?_⟩
  refine bind_eq_ok.mpr ⟨_, takeBytes_append (length_littleEndian 4 _) _, ?_⟩
  refine bind_eq_ok.mpr ⟨(littleEndian 4 data.length, []), ?_, if_pos ⟨hcheck, hsize⟩⟩
  simpa using takeBytes_append (length_littleEndian 4 data.length) []

namespace Text

theorem ofUtf8?_utf8Bytes (s : String) : ofUtf8? (utf8Bytes s) = some s :=
  dif_pos s.isValidUTF8

theorem utf8EncodeChar_plain {c : Char} (h : c.toNat < 128) :
    String.utf8EncodeChar c = [UInt8.ofNat c.toNat] := by
  have hsize : c.utf8Size = 1 := by
    rw [Char.utf8Size, if_pos]
    exact UInt32.le_iff_toNat_le.mpr (Nat.le_of_lt_succ h)
  rw [String.utf8EncodeChar_eq_singleton hsize]
  rfl

theorem utf8Bytes_plain {cs : List Char} (h : ∀ c ∈ cs, c.toNat < 128) :
    utf8Bytes (String.ofList cs) = Base64.bytes cs := by
  have hbytes : utf8Bytes (String.ofList cs) = cs.flatMap String.utf8EncodeChar := by
    simp [utf8Bytes, List.utf8Encode]
  rw [hbytes, Base64.bytes, List.map_eq_flatMap]
  exact List.flatMap_congr fun c hc => utf8EncodeChar_plain (h c hc)

theorem trim_append {before after cs : List Char} (hbefore : ∀ c ∈ before, isBlank c)
    (hafter : ∀ c ∈ after, isBlank c) (hcs : ∀ c ∈ cs, isBlank c = false) :
    trim (String.ofList (before ++ (cs ++ after))) = String.ofList cs := by
  have hkeep (us : List Char) (hus : ∀ c ∈ us, isBlank c = false) :
      us.dropWhile isBlank = us := by
    cases us with
    | nil => rfl
    | cons c us => rw [List.dropWhile_cons, hus c List.mem_cons_self]; rfl
  rw [trim, String.toList_ofList, List.dropWhile_append_of_pos hbefore, List.dropWhile_append,
    hkeep cs hcs]
  cases cs with
  | nil =>
      have hnil : after.dropWhile isBlank = [] := by
        rw [← List.append_nil after, List.dropWhile_append_of_pos hafter]
        rfl
      simp [hnil]
  | cons c cs =>
      rw [if_neg (by simp), List.reverse_append,
        List.dropWhile_append_of_pos fun c hc => hafter c (List.mem_reverse.mp hc),
        hkeep _ fun c hc => hcs c (List.mem_reverse.mp hc), List.reverse_reverse]

end Text
end DiamondScript
