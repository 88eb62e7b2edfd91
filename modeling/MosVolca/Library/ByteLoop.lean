import Mathlib.Data.BitVec

/-!
# Loops over bytes

A loop that goes through memory byte by byte from an address on, until it has looked at a byte that
stops it: `strcpy`, `strcmp` and the like. Addresses wrap around, so a loop that has gone through
the whole address space touches nothing new, and the loop is cut off there.

## Main definitions

* `ByteLoop.addrs` — consecutive addresses.
* `ByteLoop.extent` — the number of bytes a loop touches.

## Main results

* `ByteLoop.forall_addrs_lt` — when consecutive addresses are below a bound.
* `ByteLoop.forall_extent_lt` — when the addresses that a loop touches are.
-/

namespace ByteLoop

variable {w : ℕ} {a : BitVec w} {b n : ℕ} {stop : ℕ → Bool}

/-- The `n` addresses from `a` on. -/
def addrs (a : BitVec w) (n : ℕ) : List (BitVec w) :=
  (List.range n).map fun i => a + BitVec.ofNat w i

/-- The index after the first one from `i` on at which the loop stops, or `i + fuel`. -/
def extentFrom (stop : ℕ → Bool) : (fuel i : ℕ) → ℕ
  | 0, i => i
  | fuel + 1, i => if stop i then i + 1 else extentFrom stop fuel (i + 1)

/-- The number of bytes that the loop touches, with addresses of `w` bits. -/
def extent (w : ℕ) (stop : ℕ → Bool) : ℕ := extentFrom stop (2 ^ w) 0

lemma mem_addrs {x : BitVec w} : x ∈ addrs a n ↔ ∃ i < n, a + BitVec.ofNat w i = x := by
  simp [addrs]

/-- **Consecutive addresses are below a bound** exactly if they do not run past it, which they would
do before they wrap around. -/
theorem forall_addrs_lt (hb : b < 2 ^ w) :
    (∀ x ∈ addrs a n, x.toNat < b) ↔ n = 0 ∨ a.toNat + n ≤ b := by
  have haddr : ∀ i, a.toNat + i < 2 ^ w → (a + BitVec.ofNat w i).toNat = a.toNat + i := by
    intro i hi
    rw [BitVec.toNat_add, BitVec.toNat_ofNat, Nat.add_mod_mod, Nat.mod_eq_of_lt hi]
  constructor
  · intro h
    by_contra hn
    obtain ⟨hn0, hlt⟩ := not_or.mp hn
    -- the address `b` itself is among them, or the first one is already beyond it
    by_cases hab : a.toNat ≤ b
    · have hi : b - a.toNat < n := by omega
      have := h _ (mem_addrs.mpr ⟨b - a.toNat, hi, rfl⟩)
      rw [haddr _ (by omega)] at this
      omega
    · have := h _ (mem_addrs.mpr ⟨0, by omega, rfl⟩)
      rw [haddr 0 (by have := a.isLt; omega)] at this
      omega
  · rintro h x hx
    obtain ⟨i, hi, rfl⟩ := mem_addrs.mp hx
    rw [haddr i (by omega)]
    omega

/-- A loop stops after the first index that stops it, if that is within its fuel. -/
lemma extentFrom_eq {fuel i : ℕ} (hin : i ≤ n) (hn : n < i + fuel) (hstop : stop n = true)
    (hgo : ∀ j, i ≤ j → j < n → stop j = false) : extentFrom stop fuel i = n + 1 := by
  induction fuel generalizing i with
  | zero => omega
  | succ fuel ih =>
    rw [extentFrom]
    rcases hin.eq_or_lt with rfl | hlt
    · rw [if_pos hstop]
    · rw [if_neg (by simp [hgo i le_rfl hlt])]
      exact ih hlt (by omega) fun j h1 h2 => hgo j (by omega) h2

/-- A loop goes on behind what does not stop it. -/
lemma lt_extentFrom {fuel i : ℕ} (hn : n < i + fuel)
    (hgo : ∀ j, i ≤ j → j < n → stop j = false) : n < extentFrom stop fuel i := by
  induction fuel generalizing i with
  | zero => simpa [extentFrom] using hn
  | succ fuel ih =>
    rw [extentFrom]
    split_ifs with hstop
    · by_contra hlt
      rw [hgo i le_rfl (by omega)] at hstop
      exact Bool.false_ne_true hstop
    · exact ih (by omega) fun j h1 h2 => hgo j (by omega) h2

/-- A loop that nothing stops uses all its fuel. -/
lemma extentFrom_eq_add {fuel i : ℕ} (hgo : ∀ j, i ≤ j → j < i + fuel → stop j = false) :
    extentFrom stop fuel i = i + fuel := by
  induction fuel generalizing i with
  | zero => rfl
  | succ fuel ih =>
    rw [extentFrom, if_neg (by simp [hgo i le_rfl (by omega)]),
      ih fun j h1 h2 => hgo j (by omega) (by omega)]
    omega

/-- **The addresses that a loop touches are below a bound** exactly if it finds a byte that stops it
below the bound. -/
theorem forall_extent_lt (hb : b < 2 ^ w) :
    (∀ x ∈ addrs a (extent w stop), x.toNat < b) ↔ ∃ n, stop n = true ∧ a.toNat + n < b := by
  rw [forall_addrs_lt hb]
  by_cases h : ∃ n, n < 2 ^ w ∧ stop n = true
  · -- the loop ends at the first index that stops it
    classical
    obtain ⟨hlt, hstop⟩ := Nat.find_spec h
    have hgo : ∀ j, 0 ≤ j → j < Nat.find h → stop j = false := fun j _ hj => by
      have hno := Nat.find_min h hj
      rw [Bool.eq_false_iff]
      exact fun hs => hno ⟨hj.trans hlt, hs⟩
    rw [extent, extentFrom_eq (Nat.zero_le _) (by omega) hstop hgo]
    constructor
    · rintro (h0 | h1)
      · omega
      · exact ⟨_, hstop, by omega⟩
    · rintro ⟨n, hs, hn⟩
      have := Nat.find_min' h ⟨by omega, hs⟩
      omega
  · have hgo : ∀ j, 0 ≤ j → j < 0 + 2 ^ w → stop j = false := fun j _ hj => by
      rw [Bool.eq_false_iff]
      exact fun hs => h ⟨j, by omega, hs⟩
    rw [extent, extentFrom_eq_add hgo]
    constructor
    · rintro (h0 | h1) <;> omega
    · rintro ⟨n, hs, hn⟩
      exact absurd ⟨n, by omega, hs⟩ h

end ByteLoop
