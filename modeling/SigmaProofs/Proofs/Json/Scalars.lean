import SigmaProofs.Json.Reader
import SigmaProofs.Json.Writer
import SigmaProofs.Proofs.Decoding

/-!
# Strings and numbers in JSON text

* `Json.string_quote`: a text in quotes is read back, whatever its characters are.
* `Json.word_decimal`: a number of 32 bits is read back, unless what follows it makes another number
  of it.
-/

namespace SigmaProofs.Json

variable {depth : Nat}

/-! ## Characters -/

theorem peek_cons {c : Char} (hc : isBlank c = false) (rest : List Char) :
    peek ⟨c :: rest, depth⟩ = (.ok (some c), ⟨c :: rest, depth⟩) := by
  simp [peek, hc]

/-- A character that is no blank. -/
theorem expect_cons {c : Char} (hc : isBlank c = false) (rest : List Char) :
    expect c ⟨c :: rest, depth⟩ = (.ok (), ⟨rest, depth⟩) := by
  rw [expect, Decoder.bind_of_ok (peek_cons hc rest), if_pos rfl]
  rfl

/-! ## Strings -/

theorem hexDigit?_hexChar : ∀ n, n < 16 → hexDigit? (hexChar n) = some n := by decide

/-- A character is written with a letter, by its number, or as it is. -/
theorem escape_cases (c : Char) :
    (∃ letter, escape c = ['\\', letter] ∧ escaped? letter = some c) ∨
    (c.toNat < 32 ∧
      escape c = ['\\', 'u', '0', '0', hexChar (c.toNat / 16), hexChar (c.toNat % 16)]) ∨
    (escape c = [c] ∧ c ≠ '"' ∧ c ≠ '\\' ∧ ¬ c < ' ') := by
  unfold escape
  repeat' split
  all_goals first
    | exact .inl ⟨_, rfl, by subst_vars; rfl⟩
    | exact .inr (.inl ⟨by assumption, rfl⟩)
    | exact .inr (.inr ⟨rfl, by assumption, by assumption, by assumption⟩)

theorem stringBody_letter {letter c : Char} (h : escaped? letter = some c) (rest : List Char) :
    stringBody ('\\' :: letter :: rest) = (stringBody rest).map fun x => (c :: x.1, x.2) := by
  have hu : letter ≠ 'u' := by
    rintro rfl
    cases h
  rw [stringBody, h]
  · cases stringBody rest <;> rfl
  · simp [hu]

theorem stringBody_number {c : Char} (h : c.toNat < 32) (rest : List Char) :
    stringBody ('\\' :: 'u' :: '0' :: '0' :: hexChar (c.toNat / 16) :: hexChar (c.toNat % 16) ::
      rest) = (stringBody rest).map fun x => (c :: x.1, x.2) := by
  have hunit : hexUnit? '0' '0' (hexChar (c.toNat / 16)) (hexChar (c.toNat % 16)) =
      some c.toNat := by
    have hzero : hexDigit? '0' = some 0 := rfl
    have hhigh := hexDigit?_hexChar (c.toNat / 16) (by omega)
    have hlow := hexDigit?_hexChar (c.toNat % 16) (by omega)
    simp only [hexUnit?, hzero, hhigh, hlow, Option.bind_eq_bind, Option.bind_some, Option.pure_def,
      Option.some.injEq]
    omega
  have hhigh : isHighSurrogate c.toNat = false := by
    simp [isHighSurrogate]; omega
  have hlow : isLowSurrogate c.toNat = false := by
    simp [isLowSurrogate]; omega
  rw [stringBody]
  simp only [hunit, Option.bind_eq_bind, Option.bind_some, hhigh, hlow, Bool.false_eq_true,
    if_false, Char.ofNat_toNat]
  cases stringBody rest <;> rfl

theorem stringBody_plain {c : Char} (hquote : c ≠ '"') (hbackslash : c ≠ '\\') (hc : ¬ c < ' ')
    (rest : List Char) :
    stringBody (c :: rest) = (stringBody rest).map fun x => (c :: x.1, x.2) := by
  rw [stringBody]
  · simp [hc, hbackslash]
  · simpa using hquote
  · simp [hbackslash]
  · simp [hbackslash]

/-- An escaped character stands for itself. -/
theorem stringBody_escape (c : Char) (rest : List Char) :
    stringBody (escape c ++ rest) = (stringBody rest).map fun x => (c :: x.1, x.2) := by
  obtain ⟨letter, h, hletter⟩ | ⟨hc, h⟩ | ⟨h, hquote, hbackslash, hc⟩ := escape_cases c
  · rw [h]
    exact stringBody_letter hletter rest
  · rw [h]
    exact stringBody_number hc rest
  · rw [h]
    exact stringBody_plain hquote hbackslash hc rest

theorem stringBody_text (text rest : List Char) :
    stringBody (text.flatMap escape ++ '"' :: rest) = some (text, rest) := by
  induction text with
  | nil => rfl
  | cons c text ih => rw [List.flatMap_cons, List.append_assoc, stringBody_escape, ih]; rfl

/-- A text in quotes is read back. -/
theorem string_quote (text rest : List Char) :
    string ⟨quote text ++ rest, depth⟩ = (.ok text, ⟨rest, depth⟩) := by
  rw [quote, List.cons_append, List.append_assoc, string, Decoder.bind_of_ok (expect_cons rfl _)]
  simp only [Decoder.ofRest, List.cons_append, List.nil_append, stringBody_text]

/-! ## Numbers -/

/-- No other number begins with a zero. -/
theorem head?_decimal {n : Nat} (hn : 0 < n) : (decimal n).head? ≠ some '0' := by
  induction n using Nat.strongRecOn with
  | ind n ih =>
    rw [decimal, Nat.toDigits_eq_if (by decide)]
    split
    · rename_i h
      have hdigit : ∀ d, d < 10 → 0 < d → [d.digitChar].head? ≠ some '0' := by decide
      exact hdigit n h hn
    · rw [List.head?_append, Option.or_of_isSome (by simp)]
      exact ih (n / 10) (by omega) (by omega)

theorem isDigit_of_mem_decimal {n : Nat} {c : Char} (hc : c ∈ decimal n) : c.isDigit = true :=
  Nat.isDigit_of_mem_toDigits (by decide) (by decide) hc

/-- Nothing follows that could belong to a number. -/
def EndsNumber (rest : List Char) : Prop :=
  ∀ c ∈ rest.head?, c.isDigit = false ∧ c ∉ ['.', 'e', 'E']

/-- The text goes on with another item, or the array ends. -/
def EndsItem (rest : List Char) : Prop := ∃ c rest', rest = c :: rest' ∧ (c = ',' ∨ c = ']')

theorem EndsItem.endsNumber {rest : List Char} (h : EndsItem rest) : EndsNumber rest := by
  obtain ⟨c, rest, rfl, hc⟩ := h
  rintro _ ⟨⟩
  rcases hc with rfl | rfl <;> decide

theorem spanDigits_decimal (n : Nat) {rest : List Char} (hrest : EndsNumber rest) :
    spanDigits (decimal n ++ rest) = (decimal n, rest) := by
  have hdigits : ∀ c ∈ decimal n, c.isDigit = true := fun c hc => isDigit_of_mem_decimal hc
  rw [spanDigits, List.takeWhile_append_of_pos hdigits, List.dropWhile_append_of_pos hdigits]
  cases rest with
  | nil => rw [List.takeWhile_nil, List.dropWhile_nil, List.append_nil]
  | cons c rest =>
    have hno : ¬ c.isDigit = true := by simp [(hrest c rfl).1]
    rw [List.takeWhile_cons_of_neg hno, List.dropWhile_cons_of_neg hno, List.append_nil]

theorem integerPart_decimal (n : Nat) {rest : List Char} (hrest : EndsNumber rest) :
    integerPart (decimal n ++ rest) = some (decimal n, rest) := by
  rw [integerPart, spanDigits_decimal n hrest]
  split
  · rename_i heq
    exact absurd (Prod.mk.inj heq).1 Nat.toDigits_ne_nil
  · rename_i heq
    obtain ⟨hzero, -⟩ := Prod.mk.inj heq
    obtain rfl | hn := Nat.eq_zero_or_pos n
    · simp [decimal, Nat.toDigits_zero] at hzero
    · exact absurd (by rw [hzero]; rfl) (head?_decimal hn)
  · rename_i heq
    rw [heq]

theorem ofDecimal_decimal (n : Nat) : ofDecimal (decimal n) = n := by
  have h := Nat.ofDigitChars_toDigits (b := 10) (n := n) (by decide) (by decide)
  rwa [Nat.ofDigitChars_eq_foldl] at h

/-- A number begins with a character that is neither a blank nor the end of a container. -/
theorem exists_decimal_eq (n : Nat) : ∃ c ds, decimal n = c :: ds ∧ c.isDigit = true := by
  obtain ⟨c, ds, h⟩ := List.exists_cons_of_ne_nil (Nat.toDigits_ne_nil (n := n) (b := 10))
  exact ⟨c, ds, h, isDigit_of_mem_decimal (n := n) (by rw [decimal, h]; exact List.mem_cons_self)⟩

theorem isBlank_of_isDigit {c : Char} (h : c.isDigit = true) : isBlank c = false := by
  cases hblank : isBlank c with
  | false => rfl
  | true =>
    simp only [isBlank, Bool.or_eq_true, beq_iff_eq] at hblank
    rcases hblank with ((rfl | rfl) | rfl) | rfl <;> simp at h

/-- A number of 32 bits is read back. -/
theorem word_decimal {n : Nat} (hn : n < 2 ^ (32 : Nat)) {rest : List Char}
    (hrest : EndsNumber rest) : word ⟨decimal n ++ rest, depth⟩ = (.ok n, ⟨rest, depth⟩) := by
  obtain ⟨d, ds, hds, hd⟩ := exists_decimal_eq n
  have hpeek : peek ⟨decimal n ++ rest, depth⟩ = (.ok (some d), ⟨decimal n ++ rest, depth⟩) := by
    rw [hds]
    exact peek_cons (isBlank_of_isDigit hd) _
  rw [word, Decoder.bind_of_ok hpeek]
  have hinteger := integerPart_decimal n hrest
  have hno : ['.', 'e', 'E'].any (rest.head? = some ·) = false :=
    List.any_eq_false.mpr fun c hc hhead => (hrest c (of_decide_eq_true hhead)).2 hc
  simp only [Decoder.ofRest, hinteger, ofDecimal_decimal, hno, Option.bind_eq_bind,
    Option.bind_some, Bool.false_or, decide_eq_true_eq, if_neg (Nat.not_le_of_lt hn)]

end SigmaProofs.Json
