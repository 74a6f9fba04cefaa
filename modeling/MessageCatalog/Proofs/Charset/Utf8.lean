import MessageCatalog.Charset.Utf8

/-! Decoding inverts UTF-8 encoding. The machine consumes each encoded character in one piece,
whatever follows. -/
namespace MessageCatalog.Charset.Utf8

theorem run_between (b : UInt8) (rest : List UInt8) :
    run .between (b :: rest) = (first b.toNat).1 ++ run (first b.toNat).2 rest := rfl

theorem run_inside {low high bits b : Nat} (more : Nat) (rest : List UInt8) (byte : b < 256)
    (bounds : low ≤ b ∧ b ≤ high) :
    run (.inside (more + 1) low high bits) (UInt8.ofNat b :: rest) =
      run (.inside more 0x80 0xBF (bits * 64 + (b - 0x80))) rest := by
  have same : (UInt8.ofNat b).toNat = b := UInt8.toNat_ofNat_of_lt' byte
  simp [run, step, same, bounds]

theorem run_inside_last {low high bits b : Nat} (rest : List UInt8) (byte : b < 256)
    (bounds : low ≤ b ∧ b ≤ high) :
    run (.inside 0 low high bits) (UInt8.ofNat b :: rest) =
      Char.ofNat (bits * 64 + (b - 0x80)) :: run .between rest := by
  have same : (UInt8.ofNat b).toNat = b := UInt8.toNat_ofNat_of_lt' byte
  simp [run, step, same, bounds]

theorem first_of_one {b : Nat} (h : b < 0x80) : first b = ([Char.ofNat b], .between) := by
  simp [first, h]

theorem first_of_two {k : Nat} (low : 2 ≤ k) (high : k < 32) :
    first (k + 0xC0) = ([], .inside 0 0x80 0xBF k) := by
  grind [first]

theorem first_of_three {k : Nat} (high : k < 16) :
    first (k + 0xE0) =
      ([], .inside 1 (if k = 0 then 0xA0 else 0x80) (if k = 0xD then 0x9F else 0xBF) k) := by
  grind [first]

theorem first_of_four {k : Nat} (high : k ≤ 4) :
    first (k + 0xF0) =
      ([], .inside 2 (if k = 0 then 0x90 else 0x80) (if k = 4 then 0x8F else 0xBF) k) := by
  grind [first]

section Spellings

variable {v : Nat} (rest : List UInt8)

theorem run_one (high : v ≤ 0x7F) :
    run .between (UInt8.ofNat v :: rest) = Char.ofNat v :: run .between rest := by
  have lead : (UInt8.ofNat v).toNat = v :=
    UInt8.toNat_ofNat_of_lt' (Nat.lt_of_le_of_lt high (by decide))
  rw [run_between, lead, first_of_one (by omega)]
  rfl

theorem run_two (low : 0x80 ≤ v) (high : v ≤ 0x7FF) :
    run .between (UInt8.ofNat (v / 64 % 0x20 + 0xC0) :: UInt8.ofNat (v % 0x40 + 0x80) :: rest) =
      Char.ofNat v :: run .between rest := by
  have lead : (UInt8.ofNat (v / 64 % 0x20 + 0xC0)).toNat = v / 64 + 0xC0 := by
    rw [UInt8.toNat_ofNat_of_lt' (show _ < 256 by omega)]
    omega
  have whole : v / 64 * 64 + (v % 0x40 + 0x80 - 0x80) = v := by omega
  rw [run_between, lead, first_of_two (by omega) (by omega), List.nil_append,
    run_inside_last rest (by omega) (by omega), whole]

theorem run_three (low : 0x800 ≤ v) (high : v ≤ 0xFFFF) (plain : v < 0xD800 ∨ 0xDFFF < v) :
    run .between (UInt8.ofNat (v / 4096 % 0x10 + 0xE0) :: UInt8.ofNat (v / 64 % 0x40 + 0x80) ::
      UInt8.ofNat (v % 0x40 + 0x80) :: rest) = Char.ofNat v :: run .between rest := by
  have lead : (UInt8.ofNat (v / 4096 % 0x10 + 0xE0)).toNat = v / 4096 + 0xE0 := by
    rw [UInt8.toNat_ofNat_of_lt' (show _ < 256 by omega)]
    omega
  have whole :
      (v / 4096 * 64 + (v / 64 % 0x40 + 0x80 - 0x80)) * 64 + (v % 0x40 + 0x80 - 0x80) = v := by
    omega
  rw [run_between, lead, first_of_three (by omega), List.nil_append,
    run_inside 0 _ (by omega) (by split <;> split <;> omega),
    run_inside_last rest (by omega) (by omega), whole]

theorem run_four (low : 0x10000 ≤ v) (high : v < 0x110000) :
    run .between (UInt8.ofNat (v / 262144 % 0x08 + 0xF0) :: UInt8.ofNat (v / 4096 % 0x40 + 0x80) ::
      UInt8.ofNat (v / 64 % 0x40 + 0x80) :: UInt8.ofNat (v % 0x40 + 0x80) :: rest) =
      Char.ofNat v :: run .between rest := by
  have lead : (UInt8.ofNat (v / 262144 % 0x08 + 0xF0)).toNat = v / 262144 + 0xF0 := by
    rw [UInt8.toNat_ofNat_of_lt' (show _ < 256 by omega)]
    omega
  have whole : ((v / 262144 * 64 + (v / 4096 % 0x40 + 0x80 - 0x80)) * 64 +
      (v / 64 % 0x40 + 0x80 - 0x80)) * 64 + (v % 0x40 + 0x80 - 0x80) = v := by omega
  rw [run_between, lead, first_of_four (by omega), List.nil_append,
    run_inside 1 _ (by omega) (by split <;> split <;> omega),
    run_inside 0 _ (by omega) (by omega), run_inside_last rest (by omega) (by omega), whole]

end Spellings

theorem run_utf8EncodeChar (c : Char) (rest : List UInt8) :
    run .between (String.utf8EncodeChar c ++ rest) = c :: run .between rest := by
  have valid : c.toNat < 0xD800 ∨ (0xDFFF < c.toNat ∧ c.toNat < 0x110000) := c.valid
  have back : Char.ofNat c.val.toNat = c := Char.ofNat_toNat c
  change c.val.toNat < 0xD800 ∨ (0xDFFF < c.val.toNat ∧ c.val.toNat < 0x110000) at valid
  conv => rhs; rw [← back]
  simp only [String.utf8EncodeChar]
  split
  next one => exact run_one rest one
  next more =>
    split
    next two => exact run_two rest (by omega) two
    next more =>
      split
      next three => exact run_three rest (by omega) three (by omega)
      next => exact run_four rest (by omega) (by omega)

theorem decode_encode (text : List Char) : decode (encode text) = text := by
  induction text with
  | nil => rfl
  | cons c text ih =>
    rw [encode, List.flatMap_cons, decode, run_utf8EncodeChar]
    exact congrArg (c :: ·) ih

end MessageCatalog.Charset.Utf8
