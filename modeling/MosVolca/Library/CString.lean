import Mathlib.Data.List.TakeWhile
import MosVolca.Library.ByteLoop

/-!
# Strings with a null byte at the end

A string is kept in an array of bytes: it goes up to the first null byte, which has to come within
the size of the array. The string is the list of its bytes, without the null byte.

## Main definitions

* `CString.StrLen` — the length of the string in an array.
* `CString.cstr` — the bytes of the string, cut off at the size of the array.
* `CString.bytes` — the first bytes of an array.

## Main results

* `CString.cstr_update_zero` — a null byte ends the string.
* `CString.cstr_eq_iff` — two arrays hold the same string if they agree up to the null byte.
* `CString.extent_eq` — the number of bytes that a loop up to the null byte touches.
-/

namespace CString

open ByteLoop

variable {w : ℕ} {p q : ℕ → BitVec w} {i m n : ℕ} {l : List (BitVec w)}

/-- The first null byte is at index `m`. -/
def StrLen (s : ℕ → BitVec w) (m : ℕ) : Prop := s m = 0 ∧ ∀ i < m, s i ≠ 0

/-- The string in an array of size `n`. -/
def cstr (s : ℕ → BitVec w) (n : ℕ) : List (BitVec w) :=
  ((List.range n).map s).takeWhile (· != 0)

/-- A null byte within the array ends a string. -/
lemma exists_strLen {s : ℕ → BitVec w} (h : ∃ i < n, s i = 0) : ∃ m < n, StrLen s m := by
  classical
  obtain ⟨hlt, h0⟩ := Nat.find_spec h
  refine ⟨Nat.find h, hlt, h0, fun i hi hz => ?_⟩
  exact Nat.find_min h hi ⟨hi.trans hlt, hz⟩

/-- Arrays that agree up to the null byte have strings of the same length. -/
lemma StrLen.congr (h : StrLen p m) (hpq : ∀ i ≤ m, q i = p i) : StrLen q m :=
  ⟨(hpq m le_rfl).trans h.1, fun i hi => by
    rw [hpq i hi.le]
    exact h.2 i hi⟩

/-- The bytes of a string that ends within the array. -/
lemma StrLen.cstr_eq (h : StrLen p m) (hm : m < n) : cstr p n = (List.range m).map p := by
  obtain ⟨k, rfl⟩ : ∃ k, n = m + (k + 1) := ⟨n - m - 1, by omega⟩
  unfold cstr
  rw [List.range_add, List.map_append, List.takeWhile_append_of_pos]
  · rw [List.range_succ_eq_map, List.map_cons, List.map_cons, List.takeWhile_cons_of_neg]
    · rw [List.append_nil]
    · simp [h.1]
  · intro b hb
    obtain ⟨i, hi, rfl⟩ := List.mem_map.mp hb
    simpa using h.2 i (List.mem_range.mp hi)

/-- Without a null byte the whole array is taken. -/
lemma cstr_of_ne_zero (h : ∀ i < n, p i ≠ 0) : cstr p n = (List.range n).map p := by
  unfold cstr
  refine List.takeWhile_eq_self_iff.mpr fun b hb => ?_
  obtain ⟨i, hi, rfl⟩ := List.mem_map.mp hb
  simpa using h i (List.mem_range.mp hi)

lemma StrLen.length_cstr (h : StrLen p m) (hm : m < n) : (cstr p n).length = m := by
  rw [h.cstr_eq hm, List.length_map, List.length_range]

lemma zero_notMem_cstr (p : ℕ → BitVec w) (n : ℕ) : (0 : BitVec w) ∉ cstr p n := by
  intro h
  have := List.mem_takeWhile_imp h
  simp at this

lemma length_cstr_le (p : ℕ → BitVec w) (n : ℕ) : (cstr p n).length ≤ n := by
  have h := (List.takeWhile_prefix (l := (List.range n).map p) (· != 0)).length_le
  rwa [List.length_map, List.length_range] at h

/-- The string is empty if it begins with the null byte. -/
lemma cstr_eq_nil_iff (hn : 0 < n) : cstr p n = [] ↔ p 0 = 0 := by
  obtain ⟨k, rfl⟩ : ∃ k, n = k + 1 := ⟨n - 1, by omega⟩
  unfold cstr
  rw [List.range_succ_eq_map, List.map_cons]
  by_cases h : p 0 = 0
  · simp [h]
  · rw [List.takeWhile_cons_of_pos (by simpa using h)]
    simpa using h

/-! ## Building a string -/

/-- The first `n` bytes of an array. -/
def bytes (s : ℕ → BitVec w) (n : ℕ) : List (BitVec w) := (List.range n).map s

@[simp] lemma length_bytes (s : ℕ → BitVec w) (n : ℕ) : (bytes s n).length = n := by
  rw [bytes, List.length_map, List.length_range]

lemma bytes_succ (s : ℕ → BitVec w) (n : ℕ) : bytes s (n + 1) = bytes s n ++ [s n] := by
  rw [bytes, List.range_succ, List.map_append]
  rfl

lemma bytes_congr (h : ∀ i < n, p i = q i) : bytes p n = bytes q n :=
  List.map_congr_left fun i hi => h i (List.mem_range.mp hi)

/-- Arrays with the same bytes agree at each place. -/
lemma bytes_inj (h : bytes p n = bytes q n) (hi : i < n) : p i = q i := by
  have hget := congrArg (·[i]?) h
  simpa [bytes, hi] using hget

lemma bytes_update {c : BitVec w} (hi : n ≤ i) : bytes (Function.update p i c) n = bytes p n :=
  bytes_congr fun j hj => by rw [Function.update_of_ne (by omega)]

lemma bytes_update_succ (p : ℕ → BitVec w) (n : ℕ) (c : BitVec w) :
    bytes (Function.update p n c) (n + 1) = bytes p n ++ [c] := by
  rw [bytes_succ, bytes_update le_rfl, Function.update_self]

lemma bytes_take (p : ℕ → BitVec w) (hm : m ≤ n) : (bytes p n).take m = bytes p m := by
  rw [bytes, ← List.map_take, List.take_range, min_eq_left hm]
  rfl

lemma bytes_drop (p : ℕ → BitVec w) (m n : ℕ) :
    (bytes p n).drop m = bytes (fun i => p (m + i)) (n - m) := by
  refine List.ext_getElem (by simp) fun i h1 h2 => ?_
  simp [bytes]

/-- A null byte after the first `m` bytes ends the string there. -/
lemma cstr_update_zero (hp : ∀ c ∈ bytes p m, c ≠ 0) (hm : m < n) :
    cstr (Function.update p m 0) n = bytes p m := by
  have hlen : StrLen (Function.update p m 0) m := by
    refine ⟨Function.update_self m 0 p, fun i hi => ?_⟩
    rw [Function.update_of_ne hi.ne]
    exact hp _ (List.mem_map.mpr ⟨i, List.mem_range.mpr hi, rfl⟩)
  rw [hlen.cstr_eq hm]
  exact bytes_update le_rfl

/-- The same from the `k`-th byte on. -/
lemma cstr_update_zero_drop {k : ℕ} (hp : ∀ c ∈ bytes p m, c ≠ 0) (hm : m < n) (hk : k ≤ m) :
    cstr (fun i => Function.update p m 0 (k + i)) (n - k) = (bytes p m).drop k := by
  have hshift : (fun i => Function.update p m 0 (k + i)) =
      Function.update (fun i => p (k + i)) (m - k) 0 := by
    funext i
    by_cases hi : i = m - k
    · rw [hi, Function.update_self, show k + (m - k) = m by omega, Function.update_self]
    · rw [Function.update_of_ne hi, Function.update_of_ne (by omega)]
  rw [hshift, cstr_update_zero, bytes_drop]
  · intro c hc
    rw [← bytes_drop] at hc
    exact hp c (List.mem_of_mem_drop hc)
  · omega

/-- A loop that writes one byte after the other. -/
lemma foldl_put {α : Type*} (f : α → BitVec w) (as : List α) (b : ℕ → BitVec w) (k : ℕ) :
    ∃ b', as.foldl (fun (x : (ℕ → BitVec w) × ℕ) a => (Function.update x.1 x.2 (f a), x.2 + 1))
      (b, k) = (b', k + as.length) ∧ bytes b' (k + as.length) = bytes b k ++ as.map f := by
  induction as generalizing b k with
  | nil => exact ⟨b, rfl, by simp⟩
  | cons a as ih =>
    obtain ⟨b', hfold, hbytes⟩ := ih (Function.update b k (f a)) (k + 1)
    have hlen : k + 1 + as.length = k + (a :: as).length := by
      rw [List.length_cons]
      omega
    rw [hlen] at hfold hbytes
    refine ⟨b', hfold, ?_⟩
    rw [hbytes, bytes_update_succ, List.append_assoc, List.map_cons]
    rfl

/-- **Two arrays hold the same string** if they agree up to the null byte of one of them. -/
theorem cstr_eq_iff (h : StrLen p m) (hm : m < n) : cstr p n = cstr q n ↔ ∀ i ≤ m, q i = p i := by
  constructor
  · intro heq
    have hlen := h.length_cstr hm
    by_cases hq : ∃ i < n, q i = 0
    · obtain ⟨m', hm', hq⟩ := exists_strLen hq
      obtain rfl : m' = m := by rw [← hq.length_cstr hm', ← heq, hlen]
      rw [h.cstr_eq hm, hq.cstr_eq hm] at heq
      intro i hi
      rcases hi.eq_or_lt with rfl | hlt
      · rw [hq.1, h.1]
      · have := congrArg (·[i]?) heq
        simpa [hlt] using this.symm
    · push Not at hq
      rw [heq, cstr_of_ne_zero hq, List.length_map, List.length_range] at hlen
      omega
  · intro heq
    rw [h.cstr_eq hm, (h.congr heq).cstr_eq hm]
    exact List.map_congr_left fun i hi => (heq i (List.mem_range.mp hi).le).symm

/-- A loop up to the null byte touches the string and the null byte. -/
theorem StrLen.extent_eq {v : ℕ} (h : StrLen p m) (hm : m < 2 ^ v) :
    extent v (fun i => p i == 0) = m + 1 := by
  refine extentFrom_eq (Nat.zero_le m) (by omega) ?_ fun j _ hj => ?_
  · simp [h.1]
  · simpa using h.2 j hj

end CString
