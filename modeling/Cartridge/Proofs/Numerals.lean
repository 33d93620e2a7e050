import Cartridge.Text.Numeral

/-!
Numerals read as the numbers that they were written for.

Decimal and hexadecimal differ in their radix and in how digits are spelled, and padding in front
does not change a value. What holds of both is shown for any spelling that is read back digit by
digit.
-/

namespace Cartridge.Text

theorem digitsValue?_append (radix value : Nat) (first second : List Char) :
    digitsValue? radix value (first ++ second) =
      (digitsValue? radix value first).bind (digitsValue? radix · second) := by
  induction first generalizing value with
  | nil => rfl
  | cons c rest ih =>
    simp only [List.cons_append, digitsValue?]
    split
    next digit found => exact ih _
    next => rfl

theorem digitValue?_isSome_of_mem {radix value result : Nat} {digits : List Char}
    (read : digitsValue? radix value digits = some result) {c : Char} (member : c ∈ digits) :
    (digitValue? radix c).isSome = true := by
  induction digits generalizing value with
  | nil => contradiction
  | cons first rest ih =>
    simp only [digitsValue?] at read
    split at read
    next digit found =>
      rcases List.mem_cons.mp member with rfl | later
      · rw [found]
        rfl
      · exact ih read later
    next => contradiction

theorem digitsValue?_toDigits {radix : Nat} (proper : 1 < radix) {spelled : Char → Char}
    (reads : ∀ digit < radix, digitValue? radix (spelled digit.digitChar) = some digit) (n : Nat) :
    digitsValue? radix 0 ((Nat.toDigits radix n).map spelled) = some n := by
  induction n using Nat.strongRecOn with
  | ind n ih =>
    by_cases small : n < radix
    · rw [Nat.toDigits_of_lt_base small]
      simp [digitsValue?, reads n small]
    · have large : radix ≤ n := Nat.le_of_not_lt small
      have shorter : n / radix < n := Nat.div_lt_self (by omega) proper
      have last : n % radix < radix := Nat.mod_lt n (by omega)
      have whole : n / radix * radix + n % radix = n := Nat.div_add_mod' n radix
      rw [Nat.toDigits_of_base_le proper large, List.map_append, digitsValue?_append,
        ih (n / radix) shorter]
      simp [digitsValue?, reads (n % radix) last, whole]

theorem digitsValue?_decimal (n : Nat) : digitsValue? 10 0 (decimal n).toList = some n := by
  have reads : ∀ digit < 10, digitValue? 10 (id digit.digitChar) = some digit := by decide
  have value := digitsValue?_toDigits (by decide) reads n
  rwa [decimal, String.toList_ofList, ← List.map_id (Nat.toDigits 10 n)]

theorem digitsValue?_hexadecimal (width n : Nat) :
    digitsValue? 16 0 (hexadecimal width n).toList = some n := by
  have reads : ∀ digit < 16, digitValue? 16 digit.digitChar.toUpper = some digit := by decide
  have zeros : ∀ count, digitsValue? 16 0 (List.replicate count '0') = some 0 := by
    intro count
    induction count with
    | zero => rfl
    | succ count ih => exact ih
  rw [hexadecimal, String.toList_ofList, padZeros, digitsValue?_append, zeros]
  exact digitsValue?_toDigits (by decide) reads n

theorem hexadecimal_inj {width m n : Nat} (same : hexadecimal width m = hexadecimal width n) :
    m = n := by
  have read := digitsValue?_hexadecimal width m
  rw [same, digitsValue?_hexadecimal] at read
  exact (Option.some.inj read).symm

theorem not_mem_hexadecimal {c : Char} (noDigit : digitValue? 16 c = none) (width n : Nat) :
    c ∉ (hexadecimal width n).toList := by
  intro member
  have digit := digitValue?_isSome_of_mem (digitsValue?_hexadecimal width n) member
  simp [noDigit] at digit

theorem readNumeral?_eq {radix limit value : Nat} {digits : List Char} (present : digits ≠ [])
    (unsigned : '+' ∉ digits) (read : digitsValue? radix 0 digits = some value)
    (fits : value ≤ limit) : readNumeral? radix limit digits = some value := by
  cases digits with
  | nil => contradiction
  | cons first rest =>
    have plain : first ≠ '+' := by
      intro same
      exact unsigned (same ▸ List.mem_cons_self)
    simp [readNumeral?, plain, read, fits]

end Cartridge.Text
