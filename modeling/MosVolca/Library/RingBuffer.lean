import Mathlib.Data.List.Basic
import Mathlib.Data.BitVec
import Mathlib.Tactic.Ring

/-!
# Ring buffers

A ring of `N` slots between a producer and a consumer, described by the log of all elements that
were ever put in and the number `d` of elements that were taken out. The two positions are
counters of `w` bits that run freely and wrap around.

## Main definitions

* `MosVolca.RingBuffer.Holds` — the ring holds the elements of the log from `d` on.

## Main results

* `MosVolca.RingBuffer.Holds.push`, `MosVolca.RingBuffer.Holds.front` — the next element is put in,
  or taken out.
* `MosVolca.RingBuffer.toNat_sub_ofNat` — the difference of the counters.
* `MosVolca.RingBuffer.ofNat_le_ofNat_iff` — when comparing the counters compares what they count.
-/

namespace MosVolca.RingBuffer

variable {α : Type*} {N w d a : ℕ} {buf : ℕ → α} {log : List α}

/-- The ring `buf` of `N` slots holds the elements of the log from `d` on. -/
def Holds (N : ℕ) (buf : ℕ → α) (log : List α) (d : ℕ) : Prop :=
  ∀ k (h : k < log.length), d ≤ k → buf (k % N) = log[k]

/-- The empty ring. -/
lemma holds_of_le (h : log.length ≤ d) : Holds N buf log d := by
  intro k hk hd
  omega

/-- The element at the front. -/
lemma Holds.front (h : Holds N buf log d) (hd : d < log.length) : buf (d % N) = log[d] :=
  h d hd le_rfl

/-- The front is taken out. -/
lemma Holds.pop (h : Holds N buf log d) : Holds N buf log (d + 1) := by
  intro k hk hd
  exact h k hk (by omega)

/-- **An element is put in** behind the others; there has to be room, or it would replace one. -/
lemma Holds.push (h : Holds N buf log d) (hroom : log.length < d + N) (x : α) :
    Holds N (Function.update buf (log.length % N) x) (log ++ [x]) d := by
  intro k hk hd
  rw [List.length_append, List.length_singleton] at hk
  rcases Nat.lt_succ_iff_lt_or_eq.mp hk with hlt | rfl
  · -- two positions of the log less than `N` apart have different slots
    have hne : k % N ≠ log.length % N := by
      intro he
      have h1 : log.length - k < N := by omega
      have h2 : (log.length - k) % N = 0 := (Nat.sub_mod_eq_zero_of_mod_eq he.symm)
      rw [Nat.mod_eq_of_lt h1] at h2
      omega
    rw [Function.update_of_ne hne, List.getElem_append_left hlt]
    exact h k hlt hd
  · rw [Function.update_self, List.getElem_concat_length rfl]

/-- Taking one more element of the log. -/
lemma take_succ_front (hd : d < log.length) : log.take (d + 1) = log.take d ++ [log[d]] :=
  List.take_succ_eq_append_getElem hd

/-! ## Counters -/

/-- A counter selects the slot of what it counts if the number of slots divides `2 ^ w`. -/
lemma toNat_ofNat_mod (hN : N ∣ 2 ^ w) (k : ℕ) : (BitVec.ofNat w k).toNat % N = k % N := by
  rw [BitVec.toNat_ofNat, Nat.mod_mod_of_dvd k hN]

/-- The difference of two counters that are less than `2 ^ w` apart. -/
lemma toNat_sub_ofNat (hle : d ≤ a) (hlt : a < d + 2 ^ w) :
    (BitVec.ofNat w a - BitVec.ofNat w d).toNat = a - d := by
  obtain ⟨n, rfl⟩ := Nat.exists_eq_add_of_le hle
  have h : BitVec.ofNat w (d + n) - BitVec.ofNat w d = BitVec.ofNat w n := by
    rw [BitVec.ofNat_add, add_comm (BitVec.ofNat w d), BitVec.add_sub_cancel]
  rw [h, BitVec.toNat_ofNat, Nat.mod_eq_of_lt (by omega)]
  omega

/-- Counting on. -/
lemma ofNat_succ (k : ℕ) : BitVec.ofNat w k + 1 = BitVec.ofNat w (k + 1) := by
  rw [BitVec.ofNat_add]
  rfl

/-- Before the first wrap, comparing the counters compares what they count. -/
lemma ofNat_le_ofNat_iff (hd : d < 2 ^ w) (ha : a < 2 ^ w) :
    BitVec.ofNat w a ≤ BitVec.ofNat w d ↔ a ≤ d := by
  rw [BitVec.le_def, BitVec.toNat_ofNat, BitVec.toNat_ofNat, Nat.mod_eq_of_lt hd,
    Nat.mod_eq_of_lt ha]

/-- When the counter that is ahead has wrapped and the other one has not, it is the smaller one. -/
lemma ofNat_le_ofNat_of_wrapped (hd : d < 2 ^ w) (ha : 2 ^ w ≤ a) (hlt : a < d + 2 ^ w) :
    BitVec.ofNat w a ≤ BitVec.ofNat w d := by
  rw [BitVec.le_def, BitVec.toNat_ofNat, BitVec.toNat_ofNat, Nat.mod_eq_of_lt hd]
  obtain ⟨n, rfl⟩ := Nat.exists_eq_add_of_le ha
  rw [Nat.add_mod_left, Nat.mod_eq_of_lt (by omega)]
  omega

end MosVolca.RingBuffer
