/-
  Reckon.Proofs.Text.Encoding — texts as bytes.

  Bytes are text if they are what a text is in UTF-8, and then they are no other text
  (`reads_iff`). An ASCII character is one byte, its number, and no byte of any
  other character is as small. So in the bytes of a text a line feed stands for a line
  feed (`line_feed_mem_encode`), and a carriage return at their end for one at its end
  (`last_encode`). Texts of any characters are in the same order as their bytes
  (`encode_lt`).
-/

import Reckon.Text.Lines

namespace Reckon.Text.Lines

/-- The bytes of a text in UTF-8. -/
def encode (text : String) : List UInt8 := text.toUTF8.data.toList

theorem encode_of_list (cs : List Char) : encode (String.ofList cs) = cs.flatMap String.utf8EncodeChar := by
  rw [encode, String.toUTF8_eq_toByteArray, String.toByteArray_ofList]
  exact List.toList_data_toByteArray

theorem encode_eq (text : String) : encode text = text.toList.flatMap String.utf8EncodeChar := by
  rw [← encode_of_list, String.ofList_toList]

@[simp] theorem decode_encode (text : String) : decode (encode text) = some text := by
  have h : (encode text).toByteArray = text.toByteArray := ByteArray.ext (by simp [encode])
  rw [decode, h, String.fromUTF8?, dif_pos text.isValidUTF8]
  rfl

/-- What bytes are: the text that they encode, or no text. -/
def Reads (bytes : List UInt8) : Option String → Prop
  | some text => bytes = encode text
  | none => ∀ text, bytes ≠ encode text

theorem encode_of_decode {bytes : List UInt8} {text : String} (h : decode bytes = some text) : bytes = encode text := by
  unfold decode String.fromUTF8? at h
  split at h
  · cases h
    exact List.toList_data_toByteArray.symm
  · cases h

theorem reads_iff {bytes : List UInt8} {text : Option String} : Reads bytes text ↔ decode bytes = text := by
  cases text with
  | some text =>
    refine ⟨?_, encode_of_decode⟩
    rintro rfl
    exact decode_encode text
  | none =>
    constructor
    · intro h
      cases hd : decode bytes with
      | none => rfl
      | some text => exact absurd (encode_of_decode hd) (h text)
    · rintro h text rfl
      rw [decode_encode] at h
      cases h

/-! ## Characters -/

/-- The bytes of a character of each length. -/
theorem encode_char_cases (c : Char) :
    (c.toNat < 128 ∧ String.utf8EncodeChar c = [.ofNat c.toNat]) ∨
      (128 ≤ c.toNat ∧ c.toNat < 2048 ∧
        String.utf8EncodeChar c = [.ofNat (c.toNat / 64 + 192), .ofNat (c.toNat % 64 + 128)]) ∨
      (2048 ≤ c.toNat ∧ c.toNat < 65536 ∧ String.utf8EncodeChar c =
        [.ofNat (c.toNat / 4096 + 224), .ofNat (c.toNat / 64 % 64 + 128), .ofNat (c.toNat % 64 + 128)]) ∨
      (65536 ≤ c.toNat ∧ c.toNat < 1114112 ∧ String.utf8EncodeChar c =
        [.ofNat (c.toNat / 262144 + 240), .ofNat (c.toNat / 4096 % 64 + 128), .ofNat (c.toNat / 64 % 64 + 128),
          .ofNat (c.toNat % 64 + 128)]) := by
  have hval : c.val.toNat = c.toNat := rfl
  have hvalid : c.toNat < 1114112 := by
    have := c.valid
    simp only [UInt32.isValidChar, Nat.isValidChar, hval] at this
    omega
  simp only [String.utf8EncodeChar, hval]
  split
  · exact Or.inl ⟨by omega, rfl⟩
  split
  · have hlead : c.toNat / 64 % 32 = c.toNat / 64 := Nat.mod_eq_of_lt (by omega)
    exact Or.inr (Or.inl ⟨by omega, by omega, by rw [hlead]⟩)
  split
  · have hlead : c.toNat / 4096 % 16 = c.toNat / 4096 := Nat.mod_eq_of_lt (by omega)
    exact Or.inr (Or.inr (Or.inl ⟨by omega, by omega, by rw [hlead]⟩))
  · have hlead : c.toNat / 262144 % 8 = c.toNat / 262144 := Nat.mod_eq_of_lt (by omega)
    exact Or.inr (Or.inr (Or.inr ⟨by omega, hvalid, by rw [hlead]⟩))

/-! ## ASCII -/

theorem encode_char_ascii {c : Char} (h : c.toNat < 128) : String.utf8EncodeChar c = [UInt8.ofNat c.toNat] := by
  have hc : c.val.toNat ≤ 127 := Nat.le_of_lt_succ h
  simp only [String.utf8EncodeChar, hc, if_true]
  rfl

/-- A byte as small as an ASCII character is that character. -/
theorem char_of_small_byte {c : Char} {b : UInt8} (hb : b.toNat < 128) (h : b ∈ String.utf8EncodeChar c) :
    c.toNat = b.toNat := by
  have hbyte : ∀ n, (UInt8.ofNat n).toNat = n % 256 := fun n => UInt8.toNat_ofNat'
  -- All bytes of a longer character have their highest bit set.
  have hhigh : ∀ n, 128 ≤ n → n < 256 → b ≠ UInt8.ofNat n := by
    rintro n hn hlt rfl
    rw [hbyte] at hb
    omega
  rcases encode_char_cases c with ⟨_, hc⟩ | ⟨_, _, hc⟩ | ⟨_, _, hc⟩ | ⟨_, _, hc⟩ <;>
    simp only [hc, List.mem_cons, List.not_mem_nil, or_false] at h
  · rw [h, hbyte]
    omega
  · rcases h with h | h <;> exact absurd h (hhigh _ (by omega) (by omega))
  · rcases h with h | h | h <;> exact absurd h (hhigh _ (by omega) (by omega))
  · rcases h with h | h | h | h <;> exact absurd h (hhigh _ (by omega) (by omega))

theorem mem_encode_char_iff {c d : Char} (hd : d.toNat < 128) :
    UInt8.ofNat d.toNat ∈ String.utf8EncodeChar c ↔ c = d := by
  have hbyte : (UInt8.ofNat d.toNat).toNat = d.toNat := by
    rw [UInt8.toNat_ofNat']
    omega
  constructor
  · intro h
    have hc := char_of_small_byte (by rwa [hbyte]) h
    exact Char.toNat_inj.mp (hc.trans hbyte)
  · rintro rfl
    rw [encode_char_ascii hd]
    exact List.mem_singleton_self _

theorem line_feed_mem_encode (text : String) : lineFeed ∈ encode text ↔ '\n' ∈ text.toList := by
  have h : ∀ c, lineFeed ∈ String.utf8EncodeChar c ↔ c = '\n' :=
    fun c => mem_encode_char_iff (d := '\n') (by decide)
  simp only [encode_eq, List.mem_flatMap, h, exists_eq_right]

theorem encode_return (cs : List Char) :
    encode (String.ofList (cs ++ ['\r'])) = encode (String.ofList cs) ++ [carriageReturn] := by
  simp only [encode_of_list, List.flatMap_append]
  rfl

/-- The bytes of a text end with a carriage return only if the text does. -/
theorem last_encode {text : String} (h : text.toList.getLast? ≠ some '\r') :
    (encode text).getLast? ≠ some carriageReturn := by
  rcases List.eq_nil_or_concat text.toList with hnil | ⟨init, c, hinit⟩
  · simp [encode_eq, hnil]
  · have hc : c ≠ '\r' := by simpa [hinit] using h
    rw [encode_eq, hinit, List.concat_eq_append, List.flatMap_append, List.flatMap_singleton, List.getLast?_append]
    intro hb
    cases hlast : (String.utf8EncodeChar c).getLast? with
    | none => exact String.utf8EncodeChar_ne_nil (List.getLast?_eq_none_iff.mp hlast)
    | some b =>
      rw [hlast] at hb
      cases hb
      exact hc ((mem_encode_char_iff (d := '\r') (by decide)).mp (List.mem_of_getLast? hlast))

/-! ## Order -/

/-- Of two numbers the lower one is lower at the first place, by sextets, at which they differ. -/
theorem sextets_lt {m n : Nat} (h : m < n) : m / 262144 < n / 262144 ∨ m / 262144 = n / 262144 ∧
    (m / 4096 % 64 < n / 4096 % 64 ∨ m / 4096 % 64 = n / 4096 % 64 ∧
      (m / 64 % 64 < n / 64 % 64 ∨ m / 64 % 64 = n / 64 % 64 ∧ m % 64 < n % 64)) := by
  omega

/-- Of two characters the lower one has the lower bytes, whatever comes after them. -/
theorem encode_char_lt {c d : Char} (h : c < d) (x y : List UInt8) :
    String.utf8EncodeChar c ++ x < String.utf8EncodeChar d ++ y := by
  have hlt : c.toNat < d.toNat := h
  have hsextets := sextets_lt hlt
  have hbyte : ∀ n, n < 256 → (UInt8.ofNat n).toNat = n := fun n hn => UInt8.toNat_ofNat_of_lt' hn
  rcases encode_char_cases c with ⟨hm, hc⟩ | ⟨hm, hm', hc⟩ | ⟨hm, hm', hc⟩ | ⟨hm, hm', hc⟩ <;>
    rcases encode_char_cases d with ⟨hn, hd⟩ | ⟨hn, hn', hd⟩ | ⟨hn, hn', hd⟩ | ⟨hn, hn', hd⟩ <;>
    rw [hc, hd] <;>
    simp (disch := omega) only [List.cons_append, List.nil_append, List.cons_lt_cons_iff, UInt8.lt_iff_toNat_lt,
      ← UInt8.toNat_inj, hbyte] <;>
    omega

/-- Texts are in the same order by their bytes as by their characters. -/
theorem encode_lt {a b : String} (h : a < b) : encode a < encode b := by
  have hlist : ∀ cs ds : List Char, cs < ds →
      cs.flatMap String.utf8EncodeChar < ds.flatMap String.utf8EncodeChar := by
    intro cs ds hlt
    induction cs generalizing ds with
    | nil =>
      cases ds with
      | nil => exact absurd hlt (List.lt_irrefl [])
      | cons d ds =>
        obtain ⟨b, bs, hd⟩ := List.exists_cons_of_ne_nil (String.utf8EncodeChar_ne_nil (c := d))
        rw [List.flatMap_cons, hd]
        exact List.nil_lt_cons b _
    | cons c cs ih =>
      cases ds with
      | nil => exact absurd hlt (List.not_lt_nil _)
      | cons d ds =>
        rw [List.flatMap_cons, List.flatMap_cons]
        rcases List.cons_lt_cons_iff.mp hlt with hcd | ⟨rfl, hrest⟩
        · exact encode_char_lt hcd _ _
        · exact List.append_left_lt (ih ds hrest)
  rw [encode_eq, encode_eq]
  exact hlist _ _ (String.lt_iff.mp h)

end Reckon.Text.Lines
