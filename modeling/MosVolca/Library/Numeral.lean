import Mathlib.Data.Nat.Digits.Lemmas

/-!
# Numerals

A number is written in a base of at most `36` with the most significant digit first, as bytes: the
digits up to nine, then the letters. A single zero stands for zero. The digits themselves are those
of `Nat.digits`.

## Main definitions

* `Numeral.digitByte`, `Numeral.digitValue` — the byte of a digit, and the digit of a byte.
* `Numeral.numeral` — a number written in a base.
* `Numeral.read` — the number that a text stands for.

## Main results

* `Numeral.numeral_eq` — the last digit is the remainder, the others are the quotient.
* `Numeral.read_numeral`, `Numeral.read_zeros_append` — a numeral reads back, also after zeros.
-/

namespace Numeral

variable {base u k : ℕ} {upcase : Bool} {t : List (BitVec 8)}

/-- The byte of a digit. -/
def digitByte (upcase : Bool) (d : ℕ) : BitVec 8 :=
  BitVec.ofNat 8 (if d ≤ 9 then 0x30 + d else if upcase then 0x41 + d - 10 else 0x61 + d - 10)

/-- The digit of a byte, which is a figure or a letter. -/
def digitNumber (c : BitVec 8) : Option ℕ :=
  (List.range 36).find? fun d => digitByte false d = c ∨ digitByte true d = c

/-- The digit of a byte in a base. -/
def digitValue (base : ℕ) (c : BitVec 8) : Option ℕ := (digitNumber c).filter (· < base)

/-- The number `u` in a base. -/
def numeral (base : ℕ) (upcase : Bool) (u : ℕ) : List (BitVec 8) :=
  if u = 0 then [0x30] else (base.digits u).reverse.map (digitByte upcase)

/-- The number that a text stands for in a base: a digit at least, and nothing but digits. -/
def read (base : ℕ) (t : List (BitVec 8)) : Option ℕ :=
  if t = [] then none else (t.mapM (digitValue base)).map fun ds => Nat.ofDigits base ds.reverse

/-! ## Digits -/

lemma digitValue_digitByte (upcase : Bool) (hb : base ≤ 36) {d : ℕ} (hd : d < base) :
    digitValue base (digitByte upcase d) = some d := by
  have hcase : ∀ upcase, ∀ d < 36, digitNumber (digitByte upcase d) = some d := by decide
  rw [digitValue, hcase upcase d (by omega)]
  simp [hd]

lemma mapM_digitValue (hb : base ≤ 36) {ds : List ℕ} (hds : ∀ d ∈ ds, d < base) :
    (ds.map (digitByte upcase)).mapM (digitValue base) = some ds := by
  induction ds with
  | nil => rfl
  | cons d ds ih =>
    rw [List.map_cons, List.mapM_cons, digitValue_digitByte upcase hb (hds d List.mem_cons_self),
      ih fun e he => hds e (List.mem_cons_of_mem d he)]
    rfl

/-- The digits of a numeral. -/
lemma read_map (hb : base ≤ 36) {ds : List ℕ} (hne : ds ≠ []) (hds : ∀ d ∈ ds, d < base) :
    read base (ds.map (digitByte upcase)) = some (Nat.ofDigits base ds.reverse) := by
  rw [read, if_neg (by simpa using hne), mapM_digitValue hb hds]
  rfl

/-! ## Numerals -/

lemma numeral_ne_nil (base : ℕ) (upcase : Bool) (u : ℕ) : numeral base upcase u ≠ [] := by
  unfold numeral
  split
  · simp
  · next hu => simpa [Nat.digits_eq_nil_iff_eq_zero] using hu

/-- **The last digit of a numeral is the remainder**, the others are the quotient. -/
theorem numeral_eq (hb : 1 < base) :
    numeral base upcase u =
      (if u / base = 0 then [] else numeral base upcase (u / base)) ++
        [digitByte upcase (u % base)] := by
  by_cases hu : u = 0
  · subst hu
    simp [numeral, digitByte]
  · rw [numeral, if_neg hu, Nat.digits_eq_cons_digits_div hb hu, List.reverse_cons,
      List.map_append]
    congr 1
    by_cases hq : u / base = 0
    · rw [hq, if_pos rfl]
      simp
    · rw [if_neg hq, numeral, if_neg hq]

/-- The numeral has the digits of the number, or a single zero. -/
lemma numeral_eq_map (upcase : Bool) (u : ℕ) (hb : 1 < base) : ∃ ds, ds ≠ [] ∧ (∀ d ∈ ds, d < base) ∧
    Nat.ofDigits base ds.reverse = u ∧ numeral base upcase u = ds.map (digitByte upcase) := by
  by_cases hu : u = 0
  · subst hu
    refine ⟨[0], by simp, by simpa using by omega, by simp, rfl⟩
  · refine ⟨(base.digits u).reverse, ?_, ?_, ?_, ?_⟩
    · simpa [Nat.digits_eq_nil_iff_eq_zero] using hu
    · intro d hd
      exact Nat.digits_lt_base hb (List.mem_reverse.mp hd)
    · rw [List.reverse_reverse, Nat.ofDigits_digits]
    · rw [numeral, if_neg hu]

/-- **A numeral reads back as the number.** -/
theorem read_numeral (hb : 1 < base) (hb' : base ≤ 36) :
    read base (numeral base upcase u) = some u := by
  obtain ⟨ds, hne, hds, hval, hmap⟩ := numeral_eq_map upcase u hb
  rw [hmap, read_map hb' hne hds, hval]

/-- Zeros before a numeral do not change what it stands for. -/
theorem read_zeros_append (upcase : Bool) (u k : ℕ) (hb : 1 < base) (hb' : base ≤ 36) :
    read base (List.replicate k 0x30 ++ numeral base upcase u) = some u := by
  obtain ⟨ds, hne, hds, hval, hmap⟩ := numeral_eq_map upcase u hb
  have hzeros : List.replicate k (0x30 : BitVec 8) =
      (List.replicate k 0).map (digitByte upcase) := by
    rw [List.map_replicate]
    rfl
  rw [hmap, hzeros, ← List.map_append, read_map hb' (by simp [hne]), List.reverse_append,
    List.reverse_replicate, Nat.ofDigits_append_replicate_zero, hval]
  intro d hd
  rcases List.mem_append.mp hd with hd | hd
  · rw [List.eq_of_mem_replicate hd]
    omega
  · exact hds d hd

/-- **A numeral has no leading zero**, but for zero itself. -/
theorem numeral_head (hb : 1 < base) (hb' : base ≤ 36)
    (h : (numeral base upcase u).head? = some 0x30) : numeral base upcase u = [0x30] := by
  by_cases hu : u = 0
  · rw [numeral, if_pos hu]
  · rw [numeral, if_neg hu] at h
    have hne : base.digits u ≠ [] := Nat.digits_ne_nil_iff_ne_zero.mpr hu
    rw [List.head?_map, List.head?_reverse, List.getLast?_eq_some_getLast hne] at h
    have hlt : (base.digits u).getLast hne < base := Nat.digits_lt_base hb (List.getLast_mem hne)
    have hbyte := digitValue_digitByte upcase hb' hlt
    rw [Option.some.inj h] at hbyte
    -- the byte of the leading digit stands for zero
    have hzero : digitValue base 0x30 = some 0 := digitValue_digitByte false hb'
      (by omega : 0 < base)
    rw [hzero] at hbyte
    exact absurd (Option.some.inj hbyte).symm (Nat.getLast_digit_ne_zero base hu)

/-- The digits of a number below a power of the base. -/
lemma length_numeral_le (hb : 1 < base) {n : ℕ} (hn : 0 < n) (hu : u < base ^ n) :
    (numeral base upcase u).length ≤ n := by
  unfold numeral
  split
  · exact hn
  · rw [List.length_map, List.length_reverse]
    exact (Nat.digits_length_le_iff hb u).mpr hu

/-- No byte of a numeral is below the digits. -/
lemma le_of_mem_numeral (hb : 1 < base) (hb' : base ≤ 36) {c : BitVec 8}
    (hc : c ∈ numeral base upcase u) : 0x30 ≤ c.toNat := by
  obtain ⟨ds, -, hds, -, hmap⟩ := numeral_eq_map upcase u hb
  rw [hmap] at hc
  obtain ⟨d, hd, rfl⟩ := List.mem_map.mp hc
  have hcase : ∀ upcase, ∀ d < 36, 0x30 ≤ (digitByte upcase d).toNat := by decide
  exact hcase upcase d ((hds d hd).trans_le hb')

end Numeral
