import LineSearch.Text.Utf8
import Mathlib.Algebra.Group.Nat.Defs
import Mathlib.Tactic.ByContra

namespace LineSearch.Text

def continuation (n : Nat) : UInt8 := UInt8.ofNat (n % 0x40 + 0x80)

theorem toNat_continuation (n : Nat) : (continuation n).toNat = n % 0x40 + 0x80 :=
  UInt8.toNat_ofNat_of_lt' (by show _ < 256; omega)

theorem toNat_ite (a b x y : UInt8) :
    (if a = b then x else y).toNat = if a.toNat = b.toNat then x.toNat else y.toNat := by
  simp only [UInt8.toNat_inj, apply_ite UInt8.toNat]

theorem toNat_char_ofNat {n : Nat} (h : n.isValidChar) : (Char.ofNat n).toNat = n := by
  rw [Char.ofNat, dif_pos h]
  rfl

namespace Opening

variable {b : UInt8}

theorem ofByte_of_lt (h : b.toNat < 0x80) : ofByte b = .character (Char.ofNat b.toNat) := by
  rw [ofByte, if_pos (UInt8.lt_iff_toNat_lt.mpr h)]

theorem lt_of_ofByte {c : Char} (h : ofByte b = .character c) : b.toNat < 0x80 := by
  by_contra hb
  have hb' : ¬b < 0x80 := mt UInt8.lt_iff_toNat_lt.mp hb
  rw [ofByte, if_neg hb'] at h
  repeat' split at h
  all_goals cases h

theorem ofByte_two (hlow : 0xc2 ≤ b.toNat) (hhigh : b.toNat < 0xe0) :
    ofByte b = .sequence ⟨1, 0x80, 0xbf, b.toNat - 0xc0⟩ := by
  have h₁ : ¬b.toNat < 0x80 := by omega
  have h₂ : ¬b.toNat < 0xc2 := by omega
  simp [ofByte, UInt8.lt_iff_toNat_lt, h₁, h₂, hhigh]

theorem ofByte_three (hlow : 0xe0 ≤ b.toNat) (hhigh : b.toNat < 0xf0) :
    ofByte b = .sequence ⟨2, if b = 0xe0 then 0xa0 else 0x80, if b = 0xed then 0x9f else 0xbf,
      b.toNat - 0xe0⟩ := by
  have h₁ : ¬b.toNat < 0x80 := by omega
  have h₂ : ¬b.toNat < 0xc2 := by omega
  have h₃ : ¬b.toNat < 0xe0 := by omega
  simp [ofByte, UInt8.lt_iff_toNat_lt, h₁, h₂, h₃, hhigh]

theorem ofByte_four (hlow : 0xf0 ≤ b.toNat) (hhigh : b.toNat < 0xf5) :
    ofByte b = .sequence ⟨3, if b = 0xf0 then 0x90 else 0x80, if b = 0xf4 then 0x8f else 0xbf,
      b.toNat - 0xf0⟩ := by
  have h₁ : ¬b.toNat < 0x80 := by omega
  have h₂ : ¬b.toNat < 0xc2 := by omega
  have h₃ : ¬b.toNat < 0xe0 := by omega
  have h₄ : ¬b.toNat < 0xf0 := by omega
  simp [ofByte, UInt8.lt_iff_toNat_lt, h₁, h₂, h₃, h₄, hhigh]

end Opening

namespace Unfinished

variable {u : Unfinished} {b : UInt8}

def Admits (u : Unfinished) (b : UInt8) : Prop :=
  u.low.toNat ≤ b.toNat ∧ b.toNat ≤ u.high.toNat

instance (u : Unfinished) (b : UInt8) : Decidable (u.Admits b) :=
  inferInstanceAs (Decidable (_ ∧ _))

def bitsWith (u : Unfinished) (b : UInt8) : Nat := u.bits * 64 + (b.toNat - 0x80)

theorem bitsWith_continuation {n : Nat} (h : u.bits = n / 0x40) :
    u.bitsWith (continuation n) = n := by
  unfold bitsWith
  rw [toNat_continuation]
  omega

end Unfinished

namespace Decoder

variable {u : Unfinished} {b : UInt8}

theorem feed_unfinished (decoded : List Char) (u : Unfinished) (b : UInt8) :
    feed ⟨decoded, some u⟩ b =
      if u.Admits b then
        if u.missing ≤ 1 then ⟨Char.ofNat (u.bitsWith b) :: decoded, none⟩
        else ⟨decoded, some ⟨u.missing - 1, 0x80, 0xbf, u.bitsWith b⟩⟩
      else begin (replacement :: decoded) b := by
  have hadmits : (decide (u.low ≤ b) && decide (b ≤ u.high)) = true ↔ u.Admits b := by
    rw [Bool.and_eq_true, decide_eq_true_iff, decide_eq_true_iff]
    exact and_congr UInt8.le_iff_toNat_le UInt8.le_iff_toNat_le
  unfold feed
  by_cases h : u.Admits b
  · rw [if_pos h]
    exact if_pos (hadmits.mpr h)
  · rw [if_neg h]
    exact if_neg (mt hadmits.mp h)

theorem feed_last (decoded : List Char) {bits n : Nat} (h : bits = n / 0x40) :
    feed ⟨decoded, some ⟨1, 0x80, 0xbf, bits⟩⟩ (continuation n) =
      ⟨Char.ofNat n :: decoded, none⟩ := by
  have hadmits : Unfinished.Admits ⟨1, 0x80, 0xbf, bits⟩ (continuation n) := by
    simp only [Unfinished.Admits, toNat_continuation, UInt8.reduceToNat]
    omega
  rw [feed_unfinished, if_pos hadmits, if_pos (Nat.le_refl 1), Unfinished.bitsWith_continuation h]

theorem feed_more (decoded : List Char) {missing bits n : Nat} {low high : UInt8}
    (hmissing : 1 < missing) (hlow : low.toNat ≤ n % 0x40 + 0x80)
    (hhigh : n % 0x40 + 0x80 ≤ high.toNat) (h : bits = n / 0x40) :
    feed ⟨decoded, some ⟨missing, low, high, bits⟩⟩ (continuation n) =
      ⟨decoded, some ⟨missing - 1, 0x80, 0xbf, n⟩⟩ := by
  have hadmits : Unfinished.Admits ⟨missing, low, high, bits⟩ (continuation n) := by
    simp only [Unfinished.Admits, toNat_continuation]
    omega
  rw [feed_unfinished, if_pos hadmits, if_neg (Nat.not_le.mpr hmissing),
    Unfinished.bitsWith_continuation h]

theorem feed_sequence {decoded : List Char} (h : Opening.ofByte b = .sequence u) :
    feed ⟨decoded, none⟩ b = ⟨decoded, some u⟩ := by
  simp only [feed, begin, h]

theorem foldl_feed_one (decoded : List Char) {n : Nat} (h : n < 0x80) :
    [UInt8.ofNat n].foldl feed ⟨decoded, none⟩ = ⟨Char.ofNat n :: decoded, none⟩ := by
  have hbyte : (UInt8.ofNat n).toNat = n := UInt8.toNat_ofNat_of_lt' (by show _ < 256; omega)
  rw [List.foldl_cons, List.foldl_nil, feed, begin, Opening.ofByte_of_lt (by omega), hbyte]

theorem foldl_feed_two (decoded : List Char) {n : Nat} (hlow : 0x80 ≤ n) (hhigh : n < 0x800) :
    [UInt8.ofNat (n / 64 % 0x20 + 0xc0), continuation n].foldl feed ⟨decoded, none⟩ =
      ⟨Char.ofNat n :: decoded, none⟩ := by
  have hbyte : (UInt8.ofNat (n / 64 % 0x20 + 0xc0)).toNat = n / 64 % 0x20 + 0xc0 :=
    UInt8.toNat_ofNat_of_lt' (by show _ < 256; omega)
  rw [List.foldl_cons, feed_sequence (Opening.ofByte_two (by omega) (by omega)), List.foldl_cons,
    feed_last decoded (by omega), List.foldl_nil]

theorem foldl_feed_three (decoded : List Char) {n : Nat} (hlow : 0x800 ≤ n) (hhigh : n < 0x10000)
    (hvalid : n < 0xd800 ∨ 0xdfff < n) :
    [UInt8.ofNat (n / 4096 % 0x10 + 0xe0), continuation (n / 64), continuation n].foldl feed
      ⟨decoded, none⟩ = ⟨Char.ofNat n :: decoded, none⟩ := by
  have hbyte : (UInt8.ofNat (n / 4096 % 0x10 + 0xe0)).toNat = n / 4096 % 0x10 + 0xe0 :=
    UInt8.toNat_ofNat_of_lt' (by show _ < 256; omega)
  generalize UInt8.ofNat (n / 4096 % 0x10 + 0xe0) = b at hbyte
  -- The second byte rules out what has a shorter form, and the surrogates.
  have hleast : (if b = 0xe0 then 0xa0 else 0x80 : UInt8).toNat ≤ n / 64 % 0x40 + 0x80 := by
    simp only [toNat_ite, UInt8.reduceToNat]
    split <;> omega
  have hgreatest : n / 64 % 0x40 + 0x80 ≤ (if b = 0xed then 0x9f else 0xbf : UInt8).toNat := by
    simp only [toNat_ite, UInt8.reduceToNat]
    split <;> omega
  rw [List.foldl_cons, feed_sequence (Opening.ofByte_three (by omega) (by omega)), List.foldl_cons,
    feed_more decoded (by omega) hleast hgreatest (by omega), List.foldl_cons,
    feed_last decoded rfl, List.foldl_nil]

theorem foldl_feed_four (decoded : List Char) {n : Nat} (hlow : 0x10000 ≤ n)
    (hhigh : n < 0x110000) :
    [UInt8.ofNat (n / 262144 % 0x08 + 0xf0), continuation (n / 4096), continuation (n / 64),
      continuation n].foldl feed ⟨decoded, none⟩ = ⟨Char.ofNat n :: decoded, none⟩ := by
  have hbyte : (UInt8.ofNat (n / 262144 % 0x08 + 0xf0)).toNat = n / 262144 % 0x08 + 0xf0 :=
    UInt8.toNat_ofNat_of_lt' (by show _ < 256; omega)
  generalize UInt8.ofNat (n / 262144 % 0x08 + 0xf0) = b at hbyte
  -- The second byte rules out what has a shorter form, and what is past the last code point.
  have hleast : (if b = 0xf0 then 0x90 else 0x80 : UInt8).toNat ≤ n / 4096 % 0x40 + 0x80 := by
    simp only [toNat_ite, UInt8.reduceToNat]
    split <;> omega
  have hgreatest : n / 4096 % 0x40 + 0x80 ≤ (if b = 0xf4 then 0x8f else 0xbf : UInt8).toNat := by
    simp only [toNat_ite, UInt8.reduceToNat]
    split <;> omega
  have hmiddle : n / 64 % 0x40 + 0x80 ≤ (0xbf : UInt8).toNat := by
    show _ ≤ 0xbf
    omega
  rw [List.foldl_cons, feed_sequence (Opening.ofByte_four (by omega) (by omega)), List.foldl_cons,
    feed_more decoded (by omega) hleast hgreatest (by omega), List.foldl_cons,
    feed_more decoded (by omega) (Nat.le_add_left 0x80 _) hmiddle (by omega),
    List.foldl_cons, feed_last decoded rfl, List.foldl_nil]

theorem foldl_feed_utf8EncodeChar (decoded : List Char) (c : Char) :
    (String.utf8EncodeChar c).foldl feed ⟨decoded, none⟩ = ⟨c :: decoded, none⟩ := by
  have hc : Char.ofNat c.val.toNat = c := Char.ofNat_toNat c
  have hvalid : c.val.toNat < 0xd800 ∨ 0xdfff < c.val.toNat ∧ c.val.toNat < 0x110000 := c.valid
  unfold String.utf8EncodeChar
  generalize c.val.toNat = n at hc hvalid
  subst hc
  dsimp only
  split
  · exact foldl_feed_one decoded (by omega)
  · split
    · exact foldl_feed_two decoded (by omega) (by omega)
    · split
      · exact foldl_feed_three decoded (by omega) (by omega) (by omega)
      · exact foldl_feed_four decoded (by omega) (by omega)

theorem foldl_feed_encode (decoded : List Char) (text : List Char) :
    (text.flatMap String.utf8EncodeChar).foldl feed ⟨decoded, none⟩ =
      ⟨text.reverse ++ decoded, none⟩ := by
  induction text generalizing decoded with
  | nil => rfl
  | cons c text ih =>
    rw [List.flatMap_cons, List.foldl_append, foldl_feed_utf8EncodeChar, ih]
    simp

end Decoder

theorem decode_encode (s : String) : decode (encode s) = s := by
  rw [decode, encode, Decoder.start, Decoder.foldl_feed_encode]
  simp [Decoder.finish]

namespace Unfinished

/-- The least code point that the sequence can come to. -/
def least (u : Unfinished) : Nat := (u.bits * 64 + (u.low.toNat - 0x80)) * 64 ^ (u.missing - 1)

def bound (u : Unfinished) : Nat :=
  (u.bits * 64 + (u.high.toNat - 0x80) + 1) * 64 ^ (u.missing - 1)

/-- The sequence can only come to code points that are valid and beyond ASCII. -/
structure Sound (u : Unfinished) : Prop where
  low_le : 0x80 ≤ u.low.toNat
  le_least : 0x80 ≤ u.least
  valid : u.bound ≤ 0xd800 ∨ 0xe000 ≤ u.least ∧ u.bound ≤ 0x110000

theorem sound_of_ofByte {b : UInt8} {u : Unfinished} (h : Opening.ofByte b = .sequence u) :
    u.Sound := by
  unfold Opening.ofByte at h
  simp only [UInt8.lt_iff_toNat_lt, ← UInt8.toNat_inj, UInt8.reduceToNat] at h
  repeat' split at h
  all_goals cases h
  all_goals
    constructor <;>
      simp only [least, bound, UInt8.reduceToNat, Nat.reduceSub, Nat.reducePow] <;> omega

variable {u : Unfinished} {b : UInt8}

theorem least_le (h : u.Admits b) : u.least ≤ u.bitsWith b * 64 ^ (u.missing - 1) := by
  have hlow := h.1
  apply Nat.mul_le_mul_right
  unfold bitsWith
  omega

theorem le_bound (h : u.Admits b) : (u.bitsWith b + 1) * 64 ^ (u.missing - 1) ≤ u.bound := by
  have hhigh := h.2
  apply Nat.mul_le_mul_right
  unfold bitsWith
  omega

theorem mul_pow_missing (h : 1 < u.missing) (n : Nat) :
    n * 64 * 64 ^ (u.missing - 1 - 1) = n * 64 ^ (u.missing - 1) := by
  obtain ⟨k, hk⟩ : ∃ k, u.missing = k + 2 := ⟨u.missing - 2, by omega⟩
  rw [hk, Nat.mul_assoc, ← Nat.pow_succ']
  rfl

theorem Sound.continued (h : u.Sound) (hmissing : 1 < u.missing) (hb : u.Admits b) :
    Sound ⟨u.missing - 1, 0x80, 0xbf, u.bitsWith b⟩ := by
  have hleast : least ⟨u.missing - 1, 0x80, 0xbf, u.bitsWith b⟩ =
      u.bitsWith b * 64 ^ (u.missing - 1) := by
    simp only [least, UInt8.reduceToNat, Nat.sub_self, Nat.add_zero, mul_pow_missing hmissing]
  have hbound : bound ⟨u.missing - 1, 0x80, 0xbf, u.bitsWith b⟩ =
      (u.bitsWith b + 1) * 64 ^ (u.missing - 1) := by
    rw [← mul_pow_missing hmissing, Nat.add_one_mul]
    simp only [bound, UInt8.reduceToNat, Nat.reduceSub, Nat.add_assoc, Nat.reduceAdd]
  have hleast' := least_le hb
  have hbound' := le_bound hb
  have hle := h.le_least
  have hvalid := h.valid
  constructor
  · simp only [UInt8.reduceToNat, Nat.le_refl]
  · omega
  · omega

theorem Sound.le_toNat (h : u.Sound) (hmissing : u.missing ≤ 1) (hb : u.Admits b) :
    0x80 ≤ (Char.ofNat (u.bitsWith b)).toNat := by
  have hone : 64 ^ (u.missing - 1) = 1 := by
    rw [Nat.sub_eq_zero_of_le hmissing, Nat.pow_zero]
  have hleast := least_le hb
  have hbound := le_bound hb
  have hle := h.le_least
  have hvalid := h.valid
  rw [hone] at hleast hbound
  have hbits : (u.bitsWith b).isValidChar := by
    unfold Nat.isValidChar
    omega
  rw [toNat_char_ofNat hbits]
  omega

end Unfinished

namespace Decoder

theorem mem_begin {c : Char} {decoded : List Char} (h : c ∈ decoded) (b : UInt8) :
    c ∈ (begin decoded b).decoded := by
  unfold begin
  split <;> simp [h]

theorem mem_feed {c : Char} {d : Decoder} (h : c ∈ d.decoded) (b : UInt8) :
    c ∈ (d.feed b).decoded := by
  obtain ⟨decoded, unfinished⟩ := d
  cases unfinished with
  | none => exact mem_begin h b
  | some u =>
    rw [feed_unfinished]
    split
    · split
      · exact List.mem_cons_of_mem _ h
      · exact h
    · exact mem_begin (List.mem_cons_of_mem _ h) b

theorem mem_finish {c : Char} {d : Decoder} (h : c ∈ d.decoded) : c ∈ d.finish := by
  unfold finish
  split <;> simp [h]

theorem mem_finish_foldl {c : Char} {d : Decoder} (h : c ∈ d.decoded) (bytes : Bytes) :
    c ∈ (bytes.foldl feed d).finish := by
  induction bytes generalizing d with
  | nil => exact mem_finish h
  | cons b bytes ih => exact ih (mem_feed h b)

theorem le_toNat_replacement : 0x80 ≤ replacement.toNat := by decide

theorem exists_nonAscii_of_sound {u : Unfinished} (hu : u.Sound) (decoded : List Char)
    (bytes : Bytes) : ∃ c ∈ (bytes.foldl feed ⟨decoded, some u⟩).finish, 0x80 ≤ c.toNat := by
  induction bytes generalizing u with
  | nil => exact ⟨replacement, by simp [finish], le_toNat_replacement⟩
  | cons b bytes ih =>
    rw [List.foldl_cons, feed_unfinished]
    split
    · next hb =>
      split
      · next hmissing =>
        exact ⟨_, mem_finish_foldl (List.mem_cons_self ..) bytes, hu.le_toNat hmissing hb⟩
      · next hmissing => exact ih (hu.continued (Nat.lt_of_not_le hmissing) hb)
    · have hmem := mem_begin (List.mem_cons_self (a := replacement) (l := decoded)) b
      exact ⟨replacement, mem_finish_foldl hmem bytes, le_toNat_replacement⟩

theorem exists_nonAscii_of_mem {b : UInt8} {bytes : Bytes} (h : b ∈ bytes) (hb : 0x80 ≤ b.toNat)
    (decoded : List Char) : ∃ c ∈ (bytes.foldl feed ⟨decoded, none⟩).finish, 0x80 ≤ c.toNat := by
  induction bytes generalizing decoded with
  | nil => cases h
  | cons first bytes ih =>
    rw [List.foldl_cons, feed, begin]
    cases hopening : Opening.ofByte first with
    | character c =>
      refine ih ((List.mem_cons.mp h).resolve_left fun heq ↦ ?_) _
      have hlt := Opening.lt_of_ofByte hopening
      rw [← heq] at hlt
      omega
    | sequence u => exact exists_nonAscii_of_sound (Unfinished.sound_of_ofByte hopening) _ bytes
    | nothing =>
      exact ⟨replacement, mem_finish_foldl (List.mem_cons_self ..) bytes, le_toNat_replacement⟩

end Decoder

/-- A byte beyond ASCII is decoded to a character beyond ASCII, or spoils the sequence it is in. -/
theorem exists_nonAscii {b : UInt8} {bytes : Bytes} (h : b ∈ bytes) (hb : 0x80 ≤ b.toNat) :
    ∃ c ∈ (decode bytes).toList, 0x80 ≤ c.toNat := by
  rw [decode, String.toList_ofList]
  exact Decoder.exists_nonAscii_of_mem h hb []

theorem toNat_of_mem_utf8EncodeChar {b : UInt8} {c : Char} (h : b ∈ String.utf8EncodeChar c)
    (hb : b.toNat < 0x80) : b.toNat = c.toNat := by
  have hofNat {n : Nat} (hn : n < 256) : (UInt8.ofNat n).toNat = n := UInt8.toNat_ofNat_of_lt' hn
  unfold String.utf8EncodeChar at h
  change _ = c.val.toNat
  generalize c.val.toNat = n at h
  dsimp only at h
  split at h
  · rw [List.mem_singleton.mp h, hofNat (by omega)]
  · -- Every byte of a longer sequence is beyond ASCII.
    refine absurd hb (Nat.not_lt.mpr ?_)
    split at h
    · simp only [List.mem_cons, List.not_mem_nil, or_false] at h
      rcases h with rfl | rfl <;> rw [hofNat (by omega)] <;> omega
    · split at h
      · simp only [List.mem_cons, List.not_mem_nil, or_false] at h
        rcases h with rfl | rfl | rfl <;> rw [hofNat (by omega)] <;> omega
      · simp only [List.mem_cons, List.not_mem_nil, or_false] at h
        rcases h with rfl | rfl | rfl | rfl <;> rw [hofNat (by omega)] <;> omega

theorem utf8EncodeChar_of_lt {b : UInt8} (hb : b.toNat < 0x80) :
    String.utf8EncodeChar (Char.ofNat b.toNat) = [b] := by
  have hvalue : (Char.ofNat b.toNat).val.toNat = b.toNat := toNat_char_ofNat (.inl (by omega))
  unfold String.utf8EncodeChar
  rw [hvalue]
  dsimp only
  rw [if_pos (by omega), UInt8.ofNat_toNat]

theorem encode_decode {bytes : Bytes} (h : ∀ b ∈ bytes, b.toNat < 0x80) :
    encode (decode bytes) = bytes ∧
      (decode bytes).toList = bytes.map (fun b ↦ Char.ofNat b.toNat) := by
  have hencode : encode (String.ofList (bytes.map fun b ↦ Char.ofNat b.toNat)) = bytes := by
    rw [encode, String.toList_ofList]
    induction bytes with
    | nil => rfl
    | cons b bytes ih =>
      obtain ⟨hb, hbytes⟩ := List.forall_mem_cons.mp h
      rw [List.map_cons, List.flatMap_cons, ih hbytes, utf8EncodeChar_of_lt hb]
      rfl
  have hdecode := decode_encode (String.ofList (bytes.map fun b ↦ Char.ofNat b.toNat))
  rw [hencode] at hdecode
  rw [hdecode, hencode, String.toList_ofList]
  exact ⟨rfl, rfl⟩

end LineSearch.Text
