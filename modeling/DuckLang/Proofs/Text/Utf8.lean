import DuckLang.Text.Utf8

/-! The bytes of a text read as its characters again. -/

namespace DuckLang.Text.Utf8

theorem encode_eq (s : String) : encode s = s.toList.flatMap String.utf8EncodeChar := by
  rw [encode, String.toUTF8_eq_toByteArray, ← String.utf8Encode_toList, List.utf8Encode,
    List.toList_data_toByteArray]

/-! ### Sequences

Each is given by the number that it encodes, in the digits that its bytes have room for. -/

theorem toNat_ofNat {n : Nat} (h : n < 256) : (UInt8.ofNat n).toNat = n := by
  rw [UInt8.toNat_ofNat', Nat.mod_eq_of_lt h]

theorem isContinuation_ofNat (n : Nat) : isContinuation (UInt8.ofNat (n % 64 + 0x80)) = true := by
  simp only [isContinuation, UInt8.le_iff_toNat_le, toNat_ofNat (show n % 64 + 0x80 < 256 by omega),
    UInt8.reduceToNat, Bool.and_eq_true, decide_eq_true_eq]
  omega

theorem payload_ofNat (n : Nat) : payload (UInt8.ofNat (n % 64 + 0x80)) = n % 64 := by
  rw [payload, toNat_ofNat (by omega)]
  omega

theorem isSecondOfThree_ofNat {n : Nat} (hlow : 0x7ff < n) (hhigh : n ≤ 0xffff)
    (hvalid : n < 0xd800 ∨ 0xdfff < n) :
    isSecondOfThree (UInt8.ofNat (n / 4096 % 16 + 0xe0)) (UInt8.ofNat (n / 64 % 64 + 0x80)) =
      true := by
  simp only [isSecondOfThree, isContinuation_ofNat, beq_iff_eq, ← UInt8.toNat_inj,
    UInt8.le_iff_toNat_le, toNat_ofNat (show n / 4096 % 16 + 0xe0 < 256 by omega),
    toNat_ofNat (show n / 64 % 64 + 0x80 < 256 by omega), UInt8.reduceToNat]
  split
  · simp only [Bool.and_eq_true, decide_eq_true_eq]
    omega
  split
  · simp only [Bool.and_eq_true, decide_eq_true_eq]
    omega
  · rfl

theorem isSecondOfFour_ofNat {n : Nat} (hlow : 0xffff < n) (hhigh : n < 0x110000) :
    isSecondOfFour (UInt8.ofNat (n / 262144 % 8 + 0xf0)) (UInt8.ofNat (n / 4096 % 64 + 0x80)) =
      true := by
  simp only [isSecondOfFour, isContinuation_ofNat, beq_iff_eq, ← UInt8.toNat_inj,
    UInt8.le_iff_toNat_le, toNat_ofNat (show n / 262144 % 8 + 0xf0 < 256 by omega),
    toNat_ofNat (show n / 4096 % 64 + 0x80 < 256 by omega), UInt8.reduceToNat]
  split
  · simp only [Bool.and_eq_true, decide_eq_true_eq]
    omega
  split
  · simp only [Bool.and_eq_true, decide_eq_true_eq]
    omega
  · rfl

theorem sequence?_one {n : Nat} (h : n ≤ 0x7f) (rest : Bytes) :
    sequence? (UInt8.ofNat n) rest = some (Char.ofNat n, 0) := by
  simp only [sequence?, UInt8.lt_iff_toNat_lt, toNat_ofNat (show n < 256 by omega),
    UInt8.reduceToNat]
  exact if_pos (by omega)

theorem sequence?_two {n : Nat} (hlow : 0x7f < n) (hhigh : n ≤ 0x7ff) (rest : Bytes) :
    sequence? (UInt8.ofNat (n / 64 % 32 + 0xc0)) (UInt8.ofNat (n % 64 + 0x80) :: rest) =
      some (Char.ofNat n, 1) := by
  have hfirst : (UInt8.ofNat (n / 64 % 32 + 0xc0)).toNat = n / 64 % 32 + 0xc0 :=
    toNat_ofNat (by omega)
  have hsum : (n / 64 % 32 + 0xc0) % 32 * 64 + n % 64 = n := by omega
  simp only [sequence?, UInt8.lt_iff_toNat_lt, UInt8.le_iff_toNat_le, hfirst, UInt8.reduceToNat,
    isContinuation_ofNat, payload_ofNat, hsum, Bool.and_eq_true, decide_eq_true_eq]
  rw [if_neg (by omega), if_pos (by omega), if_pos trivial]

theorem sequence?_three {n : Nat} (hlow : 0x7ff < n) (hhigh : n ≤ 0xffff)
    (hvalid : n < 0xd800 ∨ 0xdfff < n) (rest : Bytes) :
    sequence? (UInt8.ofNat (n / 4096 % 16 + 0xe0))
        (UInt8.ofNat (n / 64 % 64 + 0x80) :: UInt8.ofNat (n % 64 + 0x80) :: rest) =
      some (Char.ofNat n, 2) := by
  have hfirst : (UInt8.ofNat (n / 4096 % 16 + 0xe0)).toNat = n / 4096 % 16 + 0xe0 :=
    toNat_ofNat (by omega)
  have hsum : ((n / 4096 % 16 + 0xe0) % 16 * 64 + n / 64 % 64) * 64 + n % 64 = n := by omega
  simp only [sequence?, UInt8.lt_iff_toNat_lt, UInt8.le_iff_toNat_le, hfirst, UInt8.reduceToNat,
    isSecondOfThree_ofNat hlow hhigh hvalid, isContinuation_ofNat, payload_ofNat, hsum,
    Bool.and_eq_true, decide_eq_true_eq]
  rw [if_neg (by omega), if_neg (by omega), if_pos (by omega), if_pos ⟨trivial, trivial⟩]

theorem sequence?_four {n : Nat} (hlow : 0xffff < n) (hhigh : n < 0x110000) (rest : Bytes) :
    sequence? (UInt8.ofNat (n / 262144 % 8 + 0xf0))
        (UInt8.ofNat (n / 4096 % 64 + 0x80) :: UInt8.ofNat (n / 64 % 64 + 0x80) ::
          UInt8.ofNat (n % 64 + 0x80) :: rest) =
      some (Char.ofNat n, 3) := by
  have hfirst : (UInt8.ofNat (n / 262144 % 8 + 0xf0)).toNat = n / 262144 % 8 + 0xf0 :=
    toNat_ofNat (by omega)
  have hsum : (((n / 262144 % 8 + 0xf0) % 8 * 64 + n / 4096 % 64) * 64 + n / 64 % 64) * 64 +
      n % 64 = n := by omega
  simp only [sequence?, UInt8.lt_iff_toNat_lt, UInt8.le_iff_toNat_le, hfirst, UInt8.reduceToNat,
    isSecondOfFour_ofNat hlow hhigh, isContinuation_ofNat, payload_ofNat, hsum,
    Bool.and_eq_true, decide_eq_true_eq]
  rw [if_neg (by omega), if_neg (by omega), if_neg (by omega), if_pos (by omega),
    if_pos ⟨⟨trivial, trivial⟩, trivial⟩]

/-! ### Texts -/

theorem piecesAfter_cons {b : UInt8} {rest : Bytes} {c : Char} {n : Nat}
    (h : sequence? b rest = some (c, n)) :
    piecesAfter 0 (b :: rest) = .char c :: piecesAfter n rest := by
  rw [piecesAfter, h]

theorem piecesAfter_utf8EncodeChar (c : Char) (rest : Bytes) :
    piecesAfter 0 (String.utf8EncodeChar c ++ rest) = .char c :: piecesAfter 0 rest := by
  have hvalid : c.val.toNat < 0xd800 ∨ 0xdfff < c.val.toNat ∧ c.val.toNat < 0x110000 := c.valid
  have hchar : Char.ofNat c.val.toNat = c := Char.ofNat_toNat c
  fun_cases String.utf8EncodeChar c with
  | case1 v hone =>
    have hsequence := sequence?_one hone rest
    rw [hchar] at hsequence
    exact piecesAfter_cons hsequence
  | case2 v hone htwo =>
    have hsequence := sequence?_two (Nat.lt_of_not_le hone) htwo rest
    rw [hchar] at hsequence
    exact piecesAfter_cons hsequence
  | case3 v hone htwo hthree =>
    have hsequence := sequence?_three (Nat.lt_of_not_le htwo) hthree (by omega) rest
    rw [hchar] at hsequence
    exact piecesAfter_cons hsequence
  | case4 v hone htwo hthree =>
    have hsequence := sequence?_four (Nat.lt_of_not_le hthree) (by omega) rest
    rw [hchar] at hsequence
    exact piecesAfter_cons hsequence

/-- No byte of a text is stray. -/
theorem pieces_encode (s : String) : pieces (encode s) = s.toList.map .char := by
  rw [encode_eq, pieces]
  induction s.toList with
  | nil => rfl
  | cons c cs ih => rw [List.flatMap_cons, piecesAfter_utf8EncodeChar, ih, List.map_cons]

end DuckLang.Text.Utf8
