import FieldMask.Text.Utf8

/-!
# Reading the UTF-8 form of a text

Reading the bytes of a text gives the text (`decode_encode`).  The first byte of a character says how many
more there are, and every further byte carries six bits of the number of the character: after each of them the
number so far is that of the character without the bits to come (`step_continuation`).
-/

namespace FieldMask.Text.Utf8

theorem toNat_ofNat
    {n : Nat} (h : n < 256) :
    (UInt8.ofNat n).toNat = n :=
  UInt8.toNat_ofNat_of_lt' h

/-- Whether a byte inside a character is one of those that may stand there. -/
def Between (bounds : UInt8 × UInt8) (byte : Nat) : Prop :=
  bounds.1.toNat ≤ byte ∧ byte ≤ bounds.2.toNat

theorem between_continuation
    (n : Nat) :
    Between continuation (n % 64 + 128) := by
  have hlow : continuation.1.toNat = 128 := rfl
  have hhigh : continuation.2.toNat = 191 := rfl
  rw [Between, hlow, hhigh]
  omega

/-! ## One byte -/

theorem decodeFrom_ascii
    {n : Nat} (h : n < 128) (bytes : List UInt8) :
    decodeFrom none (UInt8.ofNat n :: bytes) = Char.ofNat n :: decodeFrom none bytes := by
  have hstart : start (UInt8.ofNat n) = ([Char.ofNat n], none) := by
    rw [start, toNat_ofNat (by omega), if_pos h]
  rw [decodeFrom, step, hstart]
  rfl

theorem decodeFrom_begin
    {byte : UInt8} {begun : Partial} (hbyte : 128 ≤ byte.toNat) (h : begin? byte = some begun)
    (bytes : List UInt8) :
    decodeFrom none (byte :: bytes) = decodeFrom (some begun) bytes := by
  have hstart : start byte = ([], some begun) := by
    rw [start, if_neg (Nat.not_lt.mpr hbyte), h]
  rw [decodeFrom, step, hstart]
  rfl

/-- A byte inside a character adds six bits to the number so far. -/
theorem step_continuation
    {n : Nat} {bounds : UInt8 × UInt8} (h : Between bounds (n % 64 + 128))
    (later : List (UInt8 × UInt8)) :
    step (some ⟨n / 64, bounds, later⟩) (UInt8.ofNat (n % 64 + 128)) =
      match later with
      | [] => ([Char.ofNat n], none)
      | next :: later => ([], some ⟨n, next, later⟩) := by
  have hbyte : (UInt8.ofNat (n % 64 + 128)).toNat = n % 64 + 128 := toNat_ofNat (by omega)
  have hbits : n / 64 * 64 + (n % 64 + 128) % 64 = n := by omega
  have hbetween : bounds.1 ≤ UInt8.ofNat (n % 64 + 128) ∧ UInt8.ofNat (n % 64 + 128) ≤ bounds.2 := by
    rw [UInt8.le_iff_toNat_le, UInt8.le_iff_toNat_le, hbyte]
    exact h
  cases later with
  | nil => simp only [step, if_pos hbetween, hbyte, hbits]
  | cons next later => simp only [step, if_pos hbetween, hbyte, hbits]

theorem decodeFrom_last
    {n : Nat} {bounds : UInt8 × UInt8} (h : Between bounds (n % 64 + 128)) (bytes : List UInt8) :
    decodeFrom (some ⟨n / 64, bounds, []⟩) (UInt8.ofNat (n % 64 + 128) :: bytes) =
      Char.ofNat n :: decodeFrom none bytes := by
  rw [decodeFrom, step_continuation h]
  rfl

theorem decodeFrom_further
    {n : Nat} {bounds : UInt8 × UInt8} (h : Between bounds (n % 64 + 128))
    (next : UInt8 × UInt8) (later : List (UInt8 × UInt8)) (bytes : List UInt8) :
    decodeFrom (some ⟨n / 64, bounds, next :: later⟩) (UInt8.ofNat (n % 64 + 128) :: bytes) =
      decodeFrom (some ⟨n, next, later⟩) bytes := by
  rw [decodeFrom, step_continuation h]
  rfl

/-! ## The first byte of a character of several bytes -/

theorem begin?_two
    {n : Nat} (hlow : 128 ≤ n) (hhigh : n ≤ 2047) :
    begin? (UInt8.ofNat (n / 64 % 32 + 192)) = some ⟨n / 64, continuation, []⟩ := by
  have hbyte : (UInt8.ofNat (n / 64 % 32 + 192)).toNat = n / 64 % 32 + 192 := toNat_ofNat (by omega)
  have hrange : 194 ≤ n / 64 % 32 + 192 ∧ n / 64 % 32 + 192 ≤ 223 := by omega
  have hbits : (n / 64 % 32 + 192) % 32 = n / 64 := by omega
  simp only [begin?, hbyte, if_pos hrange, hbits]

/-- The second byte of three is bounded so that the number is neither too small nor a surrogate. -/
theorem begin?_three
    {n : Nat} (hlow : 2048 ≤ n) (hhigh : n ≤ 65535) (hvalid : n < 0xD800 ∨ 0xDFFF < n) :
    ∃ bounds, begin? (UInt8.ofNat (n / 4096 % 16 + 224)) = some ⟨n / 4096, bounds, [continuation]⟩ ∧
      Between bounds (n / 64 % 64 + 128) := by
  have hbyte : (UInt8.ofNat (n / 4096 % 16 + 224)).toNat = n / 4096 % 16 + 224 :=
    toNat_ofNat (by omega)
  have hnotTwo : ¬(194 ≤ n / 4096 % 16 + 224 ∧ n / 4096 % 16 + 224 ≤ 223) := by omega
  by_cases hfirst : n / 4096 = 0
  · refine ⟨(0xA0, 0xBF), ?_, ?_⟩
    · simp [begin?, hfirst]
    · show 160 ≤ _ ∧ _ ≤ 191
      omega
  · by_cases hsurrogates : n / 4096 = 13
    · refine ⟨(0x80, 0x9F), ?_, ?_⟩
      · simp [begin?, hsurrogates]
      · show 128 ≤ _ ∧ _ ≤ 159
        omega
    · refine ⟨continuation, ?_, between_continuation (n / 64)⟩
      have hbits : (n / 4096 % 16 + 224) % 16 = n / 4096 := by omega
      have hnotFirst : ¬n / 4096 % 16 + 224 = 224 := by omega
      have hnotSurrogates : ¬n / 4096 % 16 + 224 = 237 := by omega
      have hrange : 225 ≤ n / 4096 % 16 + 224 ∧ n / 4096 % 16 + 224 ≤ 239 := by omega
      simp only [begin?, hbyte, if_neg hnotTwo, if_neg hnotFirst, if_neg hnotSurrogates,
        if_pos hrange, hbits]

/-- The second byte of four is bounded so that the number is neither too small nor too large. -/
theorem begin?_four
    {n : Nat} (hlow : 65536 ≤ n) (hhigh : n < 0x110000) :
    ∃ bounds, begin? (UInt8.ofNat (n / 262144 % 8 + 240)) =
        some ⟨n / 262144, bounds, [continuation, continuation]⟩ ∧
      Between bounds (n / 4096 % 64 + 128) := by
  by_cases hfirst : n / 262144 = 0
  · refine ⟨(0x90, 0xBF), ?_, ?_⟩
    · simp [begin?, hfirst]
    · show 144 ≤ _ ∧ _ ≤ 191
      omega
  · by_cases hlast : n / 262144 = 4
    · refine ⟨(0x80, 0x8F), ?_, ?_⟩
      · simp [begin?, hlast]
      · show 128 ≤ _ ∧ _ ≤ 143
        omega
    · refine ⟨continuation, ?_, between_continuation (n / 4096)⟩
      have hcases : n / 262144 = 1 ∨ n / 262144 = 2 ∨ n / 262144 = 3 := by omega
      rcases hcases with h | h | h
      · simp [begin?, h]
      · simp [begin?, h]
      · simp [begin?, h]

/-! ## Characters and texts -/

/-- The bytes of a character are read as this character, and what follows is read apart from it. -/
theorem decodeFrom_utf8EncodeChar
    (c : Char) (bytes : List UInt8) :
    decodeFrom none (String.utf8EncodeChar c ++ bytes) = c :: decodeFrom none bytes := by
  have hchar : Char.ofNat c.val.toNat = c := Char.ofNat_toNat c
  have hvalid : c.val.toNat < 0xD800 ∨ 0xDFFF < c.val.toNat ∧ c.val.toNat < 0x110000 := c.valid
  simp only [String.utf8EncodeChar]
  generalize c.val.toNat = n at hchar hvalid
  subst hchar
  have hthree : n / 4096 = n / 64 / 64 := by omega
  have hfour : n / 262144 = n / 4096 / 64 := by omega
  split
  next hone => exact decodeFrom_ascii (by omega) bytes
  next hone =>
    split
    next htwo =>
      have hfirst : 128 ≤ (UInt8.ofNat (n / 64 % 32 + 192)).toNat := by
        rw [toNat_ofNat (by omega)]
        omega
      rw [List.cons_append, decodeFrom_begin hfirst (begin?_two (by omega) htwo)]
      exact decodeFrom_last (between_continuation n) bytes
    next htwo =>
      split
      next hlast =>
        have hfirst : 128 ≤ (UInt8.ofNat (n / 4096 % 16 + 224)).toNat := by
          rw [toNat_ofNat (by omega)]
          omega
        obtain ⟨bounds, hbegin, hbounds⟩ := begin?_three (n := n) (by omega) hlast (by omega)
        rw [List.cons_append, decodeFrom_begin hfirst hbegin, hthree, List.cons_append,
          decodeFrom_further hbounds]
        exact decodeFrom_last (between_continuation n) bytes
      next hlast =>
        have hfirst : 128 ≤ (UInt8.ofNat (n / 262144 % 8 + 240)).toNat := by
          rw [toNat_ofNat (by omega)]
          omega
        obtain ⟨bounds, hbegin, hbounds⟩ := begin?_four (n := n) (by omega) (by omega)
        rw [List.cons_append, decodeFrom_begin hfirst hbegin, hfour, List.cons_append,
          decodeFrom_further hbounds, hthree, List.cons_append,
          decodeFrom_further (between_continuation (n / 64))]
        exact decodeFrom_last (between_continuation n) bytes

/-- Reading the bytes of a text gives the text. -/
theorem decode_encode
    (text : List Char) :
    decode (encode text) = text := by
  induction text with
  | nil => rfl
  | cons c text ih =>
      rw [encode, List.flatMap_cons, decode, decodeFrom_utf8EncodeChar]
      exact congrArg (c :: ·) ih

end FieldMask.Text.Utf8
