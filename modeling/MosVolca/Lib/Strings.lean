import MosVolca.Library.CString
import MosVolca.Library.Numeral

/-!
# Strings of user programs, and numbers in them

A string in the memory of a program, and `strToUint` of `lib/string.c`, which reads a number from
one. The number is kept in an `int` that wraps around, and there is one loop for the empty string
and all others.

## Main definitions

* `MosVolca.UserStr` — a string with its null byte.
* `MosVolca.strToUint` — the function, with a bound on the rounds of its loop.
* `MosVolca.ReadsUint` — what it is for.

## Main results

* `MosVolca.strToUint_eq` — the value, wrapped around, or -1 for what is not a digit.
* `MosVolca.readsUint_iff` — when that is the number which the string stands for.
-/

namespace MosVolca

open CString

/-- A string with its null byte in an array, in the memory of a program. -/
structure UserStr where
  chars : ℕ → BitVec 8
  len : ℕ
  strLen : StrLen chars len
  below : len < 2 ^ 31

/-- A string of one character is short enough for an `int` as its length. -/
lemma one_below : 1 < 2 ^ 31 := by decide

/-- The characters of the string. -/
def UserStr.bytes (s : UserStr) : List (BitVec 8) := CString.bytes s.chars s.len

/-- The loop of `strToUint`, with the number so far. -/
def strToUintLoop (str : ℕ → BitVec 8) : (fuel i : ℕ) → BitVec 32 → Option (BitVec 32)
  | 0, _, _ => none
  | fuel + 1, i, r =>
    if str i = 0 then some r
    else if 0x30 ≤ str i ∧ str i ≤ 0x39 then
      strToUintLoop str fuel (i + 1) (((str i).setWidth 32 - 0x30) + r * 10)
    else some (-1)

/-- `strToUint`. -/
def strToUint (fuel : ℕ) (str : ℕ → BitVec 8) : Option (BitVec 32) := strToUintLoop str fuel 0 0

/-- What `strToUint` is for: it returns the value of a decimal numeral below 2³¹, and -1 for every
other string. -/
def ReadsUint (s : UserStr) : Prop :=
  ∀ fuel, s.len < fuel → strToUint fuel s.chars =
    some (match Numeral.read 10 s.bytes with
      | some v => if v < 2 ^ 31 then BitVec.ofNat 32 v else -1
      | none => -1)

variable {s : UserStr} {i fuel : ℕ} {c : BitVec 8} {r : BitVec 32} {ds : List ℕ}

/-- The decimal digits. -/
lemma digitValue_ten (c : BitVec 8) :
    Numeral.digitValue 10 c = if 0x30 ≤ c ∧ c ≤ 0x39 then some (c.toNat - 0x30) else none := by
  split_ifs with hc
  · have hlo : 0x30 ≤ c.toNat := hc.1
    have hhi : c.toNat ≤ 0x39 := hc.2
    have hdigit : ∀ d < 10, BitVec.ofNat 8 (0x30 + d) = Numeral.digitByte false d := by decide
    have hbyte : c = Numeral.digitByte false (c.toNat - 0x30) := by
      rw [← hdigit _ (by omega), Nat.add_sub_cancel' hlo, BitVec.ofNat_toNat, BitVec.setWidth_eq]
    conv_lhs => rw [hbyte]
    exact Numeral.digitValue_digitByte false (by decide) (by omega)
  · have hrange : ∀ d < 10, ∀ upcase, 0x30 ≤ Numeral.digitByte upcase d ∧
        Numeral.digitByte upcase d ≤ 0x39 := by decide
    rw [Numeral.digitValue, Option.filter_eq_none_iff]
    intro d hd hlt
    have hmem := List.find?_some hd
    simp only [Bool.decide_or, Bool.or_eq_true, decide_eq_true_eq] at hmem hlt
    rcases hmem with rfl | rfl
    · exact hc (hrange d hlt false)
    · exact hc (hrange d hlt true)

/-- One digit behind a number. -/
lemma step_eq (hc : 0x30 ≤ c) (r : BitVec 32) :
    (c.setWidth 32 - 0x30) + r * 10 = BitVec.ofNat 32 (c.toNat - 0x30 + r.toNat * 10) := by
  have hc' : 0x30 ≤ c.toNat := hc
  have hlt := c.isLt
  apply BitVec.eq_of_toNat_eq
  have h30 : (0x30 : BitVec 32).toNat = 0x30 := rfl
  have h10 : (10 : BitVec 32).toNat = 10 := rfl
  rw [BitVec.toNat_add, BitVec.toNat_mul, BitVec.toNat_sub, BitVec.toNat_setWidth,
    BitVec.toNat_ofNat, h30, h10]
  omega

/-- The rest of the string in the loop: the digits behind the number, or -1. -/
lemma strToUintLoop_eq (hi : i ≤ s.len) (hf : s.len < i + fuel) (n : ℕ) :
    strToUintLoop s.chars fuel i (BitVec.ofNat 32 n) =
      some (((s.bytes.drop i).mapM (Numeral.digitValue 10)).elim (-1) fun ds =>
        BitVec.ofNat 32 (ds.foldl (fun r d => d + r * 10) n)) := by
  induction fuel generalizing i n with
  | zero => omega
  | succ fuel ih =>
    rw [strToUintLoop]
    rcases hi.eq_or_lt with rfl | hlt
    · rw [if_pos s.strLen.1, List.drop_of_length_le (by simp [UserStr.bytes])]
      rfl
    · have hdrop : s.bytes.drop i = s.chars i :: s.bytes.drop (i + 1) := by
        rw [List.drop_eq_getElem_cons (by simpa [UserStr.bytes] using hlt)]
        simp [UserStr.bytes, CString.bytes]
      rw [if_neg (s.strLen.2 i hlt), hdrop, List.mapM_cons, digitValue_ten]
      split_ifs with hd
      · have hstep : (s.chars i).setWidth 32 - 0x30 + BitVec.ofNat 32 n * 10 =
            BitVec.ofNat 32 ((s.chars i).toNat - 0x30 + n * 10) := by
          rw [step_eq hd.1, BitVec.toNat_ofNat]
          apply BitVec.eq_of_toNat_eq
          rw [BitVec.toNat_ofNat, BitVec.toNat_ofNat]
          omega
        rw [hstep, ih hlt (by omega)]
        cases (s.bytes.drop (i + 1)).mapM (Numeral.digitValue 10) <;> rfl
      · rfl

/-- The digits from the left, each behind the number so far. -/
lemma foldl_digits (ds : List ℕ) (n : ℕ) :
    ds.foldl (fun r d => d + r * 10) n = Nat.ofDigits 10 ds.reverse + n * 10 ^ ds.length := by
  induction ds generalizing n with
  | nil => simp
  | cons d ds ih =>
    rw [List.foldl_cons, ih, List.reverse_cons, Nat.ofDigits_append, List.length_reverse,
      Nat.ofDigits_singleton, List.length_cons, pow_succ]
    ring

/-- **What `strToUint` returns**: the value of the digits, wrapped around, 0 for the empty string,
and -1 for what is not a digit. -/
theorem strToUint_eq (hf : s.len < fuel) : strToUint fuel s.chars =
    some (if s.bytes = [] then 0
      else (Numeral.read 10 s.bytes).elim (-1) fun v => BitVec.ofNat 32 v) := by
  rw [strToUint, show (0 : BitVec 32) = BitVec.ofNat 32 0 from rfl,
    strToUintLoop_eq (Nat.zero_le _) (by omega), List.drop_zero]
  split_ifs with hnil
  · rw [hnil]
    rfl
  · rw [Numeral.read, if_neg hnil]
    cases s.bytes.mapM (Numeral.digitValue 10) with
    | none => rfl
    | some ds => simp [foldl_digits]

/-- The empty string stands for no number. -/
lemma read_ten_nil : Numeral.read 10 [] = none := rfl

/-- **When `strToUint` does what it is for**: on a numeral below 2³¹, on one whose value happens to
wrap around to -1, and on strings that are not numerals, but for the empty one. -/
theorem readsUint_iff (s : UserStr) : ReadsUint s ↔
    match Numeral.read 10 s.bytes with
    | some v => v < 2 ^ 31 ∨ v % 2 ^ 32 = 2 ^ 32 - 1
    | none => s.bytes ≠ [] := by
  have hiff : ∀ a : BitVec 32, (∀ fuel, s.len < fuel → strToUint fuel s.chars = some a) ↔
      (if s.bytes = [] then 0
        else (Numeral.read 10 s.bytes).elim (-1) fun v => BitVec.ofNat 32 v) = a := by
    intro a
    constructor
    · intro h
      have hres := h (s.len + 1) (by omega)
      rw [strToUint_eq (by omega)] at hres
      exact Option.some.inj hres
    · rintro rfl fuel hf
      exact strToUint_eq hf
  rw [ReadsUint, hiff]
  by_cases hnil : s.bytes = []
  · rw [if_pos hnil, hnil, read_ten_nil]
    exact iff_of_false (by decide) (by simp)
  · rw [if_neg hnil]
    cases Numeral.read 10 s.bytes with
    | none => exact iff_of_true rfl hnil
    | some v =>
      simp only [Option.elim_some]
      split_ifs with hv
      · exact iff_of_true rfl (Or.inl hv)
      · rw [or_iff_right hv, ← BitVec.toNat_inj, BitVec.toNat_ofNat]
        rfl

/-- The empty string, which begins with its null byte. -/
def emptyStr : UserStr := ⟨fun _ => 0, 0, ⟨rfl, nofun⟩, by decide⟩

/-- The empty string reads as 0, not as -1. -/
theorem strToUint_empty :
    ¬ ∀ s : UserStr, ∀ fuel, s.len < fuel → strToUint fuel s.chars =
      some (match Numeral.read 10 s.bytes with
        | some v => if v < 2 ^ 31 then BitVec.ofNat 32 v else -1
        | none => -1) := by
  intro h
  have hres := h emptyStr 1 (by decide)
  cases hres

end MosVolca
