import LayeredConfig.Json.Reader
import LayeredConfig.Json.Text
import Mathlib.Data.List.TakeDrop

/-! # JSON strings and integers

The reader takes back the characters that were quoted and the integer that was written, and stops where
their text ends. For an integer this needs what follows to be no part of a longer number, which holds of
all that may follow a word.
-/
namespace LayeredConfig.Json
variable {c : Char} {acc cs ds rest : List Char} {n : Nat}

/-- Before a word ends: nothing, or a character that no number goes on with. -/
theorem endsWord_cases (h : endsWord rest = true) :
    rest = [] ∨ ∃ c cs, rest = c :: cs ∧ c.isDigit = false ∧ c ≠ '.' ∧ c ≠ 'e' ∧ c ≠ 'E' := by
  cases rest with
  | nil => exact Or.inl rfl
  | cons c cs =>
    refine Or.inr ⟨c, cs, rfl, ?_⟩
    simp only [endsWord, isBlank, Bool.or_eq_true, decide_eq_true_eq, List.contains_iff_mem, List.mem_cons,
      List.not_mem_nil, or_false] at h
    rcases h with (((rfl | rfl) | rfl) | rfl) | rfl | rfl | rfl | rfl | rfl | rfl | rfl <;> decide

theorem hex_of_control : ∀ n < 32,
    Digits.number? 16 ['0', '0', hexDigit (n / 16), hexDigit (n % 16)] = some n := by decide

/-- Each character is read back from its escape. -/
theorem readQuoted_escape : readQuoted acc (escape c ++ rest) = readQuoted (c :: acc) rest := by
  unfold escape
  split
  · next hc => subst hc; rfl
  split
  · next hc => subst hc; rfl
  split
  · next hc => subst hc; rfl
  split
  · next hc => subst hc; rfl
  split
  · next hc => subst hc; rfl
  split
  · next hc =>
    have hc : c = Char.ofNat 8 := by rw [← hc, Char.ofNat_toNat]
    subst hc
    rfl
  split
  · next hc =>
    have hc : c = Char.ofNat 12 := by rw [← hc, Char.ofNat_toNat]
    subst hc
    rfl
  split
  · next hlt =>
    have hhex := hex_of_control c.toNat hlt
    have hhigh : ¬ (0xDC00 ≤ c.toNat ∧ c.toNat < 0xE000) := by omega
    have hlow : ¬ (0xD800 ≤ c.toNat ∧ c.toNat < 0xDC00) := by omega
    rw [List.cons_append, readQuoted.eq_def]
    simp [hhex, hhigh, hlow, Char.ofNat_toNat]
  · next hquote hslash _ _ _ _ _ hlt =>
    rw [List.singleton_append, readQuoted.eq_def]
    simp [hquote, hslash, hlt]

theorem readQuoted_escaped :
    readQuoted acc (cs.flatMap escape ++ '"' :: rest) = some (String.ofList (acc.reverse ++ cs), rest) := by
  induction cs generalizing acc with
  | nil =>
    rw [readQuoted.eq_def]
    simp
  | cons c cs ih =>
    rw [List.flatMap_cons, List.append_assoc, readQuoted_escape, ih]
    simp

/-- A quoted text is read back after its first quote. -/
theorem readQuoted_quote (s : String) : readQuoted [] ((quote s).tail ++ rest) = some (s, rest) := by
  simp [quote, readQuoted_escaped]

/-- Digits that are followed by none are taken off as a whole. -/
theorem span_digits (hd : ∀ c ∈ ds, c.isDigit = true) (hr : endsWord rest = true) :
    (ds ++ rest).span Char.isDigit = (ds, rest) := by
  rw [List.span_eq_takeWhile_dropWhile, List.takeWhile_append_of_pos hd, List.dropWhile_append_of_pos hd]
  rcases endsWord_cases hr with rfl | ⟨c,cs,rfl,hc,_⟩
  · simp
  · simp [hc]

theorem isDigit_of_mem_toDigits (h : c ∈ Nat.toDigits 10 n) : c.isDigit = true :=
  Nat.isDigit_of_mem_toDigits (by decide) (by decide) h

/-- The digits of a positive number do not begin with zero. -/
theorem head_toDigits_ne (h : 0 < n) : ∃ c cs, Nat.toDigits 10 n = c :: cs ∧ c ≠ '0' := by
  induction n using Nat.strongRecOn with
  | ind n ih =>
    rw [Nat.toDigits_eq_if (by decide)]
    split
    · refine ⟨n.digitChar, [], rfl, ?_⟩
      rw [Ne, Nat.digitChar_eq_zero]
      omega
    · obtain ⟨c,cs,hcs,hc⟩ := ih (n / 10) (by omega) (by omega)
      exact ⟨c, cs ++ [(n % 10).digitChar], by rw [hcs, List.cons_append], hc⟩

theorem readWhole_toDigits (hr : endsWord rest = true) :
    readWhole (Nat.toDigits 10 n ++ rest) = some (Nat.toDigits 10 n, rest) := by
  rcases Nat.eq_zero_or_pos n with rfl | hn
  · rcases endsWord_cases hr with rfl | ⟨c,cs,rfl,hc,_⟩
    · rfl
    · simp [readWhole, hc]
  · obtain ⟨c,cs,hcs,hc⟩ := head_toDigits_ne hn
    have hspan : (Nat.toDigits 10 n ++ rest).span Char.isDigit = (Nat.toDigits 10 n, rest) :=
      span_digits (fun _ => isDigit_of_mem_toDigits) hr
    rw [hcs, List.cons_append] at hspan ⊢
    rw [readWhole.eq_def]
    split
    · next he => exact absurd (List.cons.inj he).1 hc
    · next he => exact absurd (List.cons.inj he).1 hc
    · simp only [hspan]
      rfl

theorem digitsValue_toDigits : digitsValue (Nat.toDigits 10 n) = n :=
  Nat.ofDigitChars_ten_toDigits

theorem readFraction_of_endsWord (hr : endsWord rest = true) : readFraction rest = some (none, rest) := by
  rcases endsWord_cases hr with rfl | ⟨c,cs,rfl,_,hc,_⟩
  · rfl
  · rw [readFraction.eq_def]
    split
    · next he =>
      cases he
      exact absurd rfl hc
    · rfl

theorem readExponent_of_endsWord (hr : endsWord rest = true) : readExponent rest = some (none, rest) := by
  rcases endsWord_cases hr with rfl | ⟨c,cs,rfl,_,_,he,hE⟩
  · rfl
  · simp [readExponent, he, hE]

/-- A literal that is all digits is an integer if it fits a word. -/
theorem readNumber_toDigits {k : Integer} (hr : endsWord rest = true) (hk : Integer.ofInt? n = some k) :
    readNumber (Nat.toDigits 10 n ++ rest) = some (.integer k, rest) := by
  obtain ⟨c,cs,hcs⟩ := List.exists_cons_of_ne_nil (Nat.toDigits_ne_nil (n := n) (b := 10))
  have hc : c ≠ '-' := by
    rintro rfl
    have hdigit : '-'.isDigit = true := isDigit_of_mem_toDigits (n := n) (hcs ▸ List.mem_cons_self)
    revert hdigit
    decide
  have hwhole := readWhole_toDigits (n := n) hr
  have hvalue := digitsValue_toDigits (n := n)
  rw [hcs] at hwhole hvalue ⊢
  rw [List.cons_append] at hwhole ⊢
  -- The bounds of a word must not be unfolded, so the test for them is given a name of its own.
  obtain ⟨fits,hfits⟩ : ∃ f, f = Integer.ofInt? := ⟨_, rfl⟩
  rw [← hfits] at hk
  unfold readNumber
  rw [← hfits]
  split
  next negative tail hsign =>
    split at hsign
    · next he => exact absurd (List.cons.inj he).1 hc
    · cases hsign
      simp [hwhole, readFraction_of_endsWord hr, readExponent_of_endsWord hr, hvalue, hk]

theorem readNumber_negative {k : Integer} (hr : endsWord rest = true) (hn : 0 < n)
    (hk : Integer.ofInt? (-n) = some k) :
    readNumber ('-' :: (Nat.toDigits 10 n ++ rest)) = some (.integer k, rest) := by
  obtain ⟨fits,hfits⟩ : ∃ f, f = Integer.ofInt? := ⟨_, rfl⟩
  rw [← hfits] at hk
  unfold readNumber
  rw [← hfits]
  simp [readWhole_toDigits hr, readFraction_of_endsWord hr, readExponent_of_endsWord hr,
    digitsValue_toDigits, hk, Nat.ne_of_gt hn]

/-- An integer is read back where its text ends. -/
theorem readNumber_integer (k : Integer) (hr : endsWord rest = true) :
    readNumber (numberText (.integer k) ++ rest) = some (.integer k, rest) := by
  have hk : Integer.ofInt? k.val = some k := by simp [Integer.ofInt?, k.low, k.high]
  rw [numberText, Int.toString_eq_repr, Int.repr_eq_if]
  split
  · next hpos =>
    rw [Nat.toList_repr]
    exact readNumber_toDigits hr (by rw [Int.toNat_of_nonneg hpos, hk])
  · next hneg =>
    have hval : (((-k.val).toNat : Nat) : Int) = -k.val := Int.toNat_of_nonneg (by omega)
    rw [String.toList_append, Nat.toList_repr]
    exact readNumber_negative hr (by omega) (by rw [hval, Int.neg_neg, hk])

end LayeredConfig.Json
