import MosVolca.Library.Endian
import MosVolca.Tools.Fsformat

/-!
# Blocks in the other byte order

`reverse` and `reverse_block` of `tools/fsformat.c` on the bytes of a block. `reverse` reads a word in
the order of the host and writes its most significant byte first, whatever the host is.

## Main definitions

* `MosVolca.reverse`, `MosVolca.reverseBlock` — the functions.
* `MosVolca.fieldWords` — the words of a block that are fields of 32 bits.

## Main results

* `MosVolca.reverseBlock_eq` — the words that are brought into the other order.
* `MosVolca.reverseBlock_reverseBlock`, `MosVolca.reverseBlock_of_notMem` — it is its own inverse, and
  changes these fields only.
-/

namespace MosVolca

open Endian

variable {host : Endian} {type : BlockType} {x : ℕ → Char8} {A : Set ℕ} {i k v w : ℕ}

/-! ## The functions -/

/-- `reverse`. -/
def reverse (host : Endian) (x : ℕ → Char8) (p : ℕ) : ℕ → Char8 :=
  let y := host.load x p
  let x := Function.update x (p + 3) ((y &&& 0xFF).setWidth 8)
  let x := Function.update x (p + 2) (((y >>> 8) &&& 0xFF).setWidth 8)
  let x := Function.update x (p + 1) (((y >>> 16) &&& 0xFF).setWidth 8)
  Function.update x p (((y >>> 24) &&& 0xFF).setWidth 8)

/-- The calls of `reverse` for the structure at byte `p`. -/
def reverseFile (host : Endian) (x : ℕ → Char8) (p : ℕ) : ℕ → Char8 :=
  let x := reverse host x (p + 128)
  let x := reverse host x (p + 132)
  let x := (List.range' 0 ndirect).foldl (fun x i => reverse host x (p + 136 + 4 * i)) x
  reverse host x (p + 176)

/-- The loop of `reverse_block` over the structures, from number `i` on. -/
def reverseFiles (host : Endian) (x : ℕ → Char8) (i : ℕ) : ℕ → ℕ → Char8
  | 0 => x
  | k + 1 =>
    if x (256 * i) = 0 then x else reverseFiles host (reverseFile host x (256 * i)) (i + 1) k

/-- `reverse_block`. -/
def reverseBlock (host : Endian) (type : BlockType) (x : ℕ → Char8) : ℕ → Char8 :=
  match type with
  | .free | .boot | .data => x
  | .super => reverseFile host (reverse host (reverse host x 0) 4) 8
  | .file => reverseFiles host x 0 file2blk
  | .index | .bmap => (List.range' 0 1024).foldl (fun x i => reverse host x (4 * i)) x

/-! ## The fields -/

/-- The words of a block that are fields of 32 bits. -/
def fieldWords : BlockType → Set ℕ
  | .super => {w | w < 2 ∨ 34 ≤ w ∧ w < 47}
  | .file => {w | w / 64 < 16 ∧ 32 ≤ w % 64 ∧ w % 64 < 45}
  | .index | .bmap => {w | w < 1024}
  | .free | .boot | .data => ∅

/-- The structures before the first one without a name. -/
def NamedUpTo (x : ℕ → Char8) (j : ℕ) : Prop := ∀ l ≤ j, x (256 * l) ≠ 0

/-- The words that `reverse_block` changes. -/
def reversedWords (type : BlockType) (x : ℕ → Char8) : Set ℕ :=
  match type with
  | .file => {w | w ∈ fieldWords .file ∧ NamedUpTo x (w / 64)}
  | type => fieldWords type

lemma reversedWords_subset (h : w ∈ reversedWords type x) : w ∈ fieldWords type := by
  cases type with
  | file => exact h.1
  | _ => exact h

/-! ## What they change -/

/-- **`reverse`** brings a word from the order of the host into the big-endian one. -/
lemma reverse_eq (host : Endian) (x : ℕ → Char8) (w : ℕ) :
    reverse host x (4 * w) = recode host .big {w} x := by
  have hbyte : ∀ k < 4, ((host.load x (4 * w) >>> (8 * k)) &&& 0xFF).setWidth 8 =
      x (4 * w + host.place k) := by
    intro k hk
    rw [← byte_load host x (4 * w) hk]
    apply BitVec.eq_of_getLsbD_eq
    intro i hi
    have hmask : (0xFF : Word).getLsbD i = decide (i < 8) := ByteWords.getLsbD_mask (by omega)
    rw [BitVec.getLsbD_setWidth, BitVec.getLsbD_and, hmask, BitVec.getLsbD_setWidth]
    simp only [hi, decide_true, Bool.true_and, Bool.and_true]
  have h0 := hbyte 0 (by decide)
  have h1 := hbyte 1 (by decide)
  have h2 := hbyte 2 (by decide)
  have h3 := hbyte 3 (by decide)
  rw [Nat.mul_zero, BitVec.ushiftRight_zero] at h0
  funext i
  unfold reverse
  simp only [Function.update_apply]
  by_cases hi : i / 4 = w
  · rw [recode_of_mem hi, hi]
    obtain h | h | h | h : i = 4 * w ∨ i = 4 * w + 1 ∨ i = 4 * w + 2 ∨ i = 4 * w + 3 := by omega
    · rw [if_pos h, h, Nat.mul_mod_right]
      exact h3
    · rw [if_neg (by omega), if_pos h, h, Nat.mul_add_mod]
      exact h2
    · rw [if_neg (by omega), if_neg (by omega), if_pos h, h, Nat.mul_add_mod]
      exact h1
    · rw [if_neg (by omega), if_neg (by omega), if_neg (by omega), if_pos h, h, Nat.mul_add_mod]
      exact h0
  · rw [recode_of_notMem hi, if_neg (by omega), if_neg (by omega), if_neg (by omega),
      if_neg (by omega)]

/-- One word after the others. -/
lemma reverse_recode (h : w ∉ A) :
    reverse host (recode host .big A x) (4 * w) = recode host .big (A ∪ {w}) x := by
  rw [reverse_eq]
  exact recode_union fun v hv hvw => h (hvw ▸ hv)

/-- A loop over the words from `w` on. -/
lemma foldl_reverse (host : Endian) (x : ℕ → Char8) (w k : ℕ) :
    (List.range' 0 k).foldl (fun x i => reverse host x (4 * w + 4 * i)) x =
      recode host .big {v | w ≤ v ∧ v < w + k} x := by
  induction k with
  | zero =>
    have hempty : {v | w ≤ v ∧ v < w + 0} = ∅ := by
      ext v
      simp
    rw [hempty, recode_empty]
    rfl
  | succ k ih =>
    have hset : {v | w ≤ v ∧ v < w + k} ∪ {w + k} = {v | w ≤ v ∧ v < w + (k + 1)} := by
      ext v
      simp only [Set.mem_union, Set.mem_ofPred_eq, Set.mem_singleton_iff]
      omega
    rw [List.range'_1_concat, List.foldl_append, ih, Nat.zero_add, List.foldl_cons, List.foldl_nil,
      ← Nat.mul_add, reverse_recode (by simp), hset]

/-- The fields of the structure at word `w`. -/
lemma reverseFile_eq (host : Endian) (x : ℕ → Char8) (w : ℕ) :
    reverseFile host x (4 * w) = recode host .big {v | w + 32 ≤ v ∧ v < w + 45} x := by
  have hset : ({w + 32} ∪ {w + 33} ∪ {v | w + 34 ≤ v ∧ v < w + 34 + 10} ∪ {w + 44} : Set ℕ) =
      {v | w + 32 ≤ v ∧ v < w + 45} := by
    ext v
    simp only [Set.mem_union, Set.mem_ofPred_eq, Set.mem_singleton_iff]
    omega
  have hfirst : reverse host (reverse host x (4 * (w + 32))) (4 * (w + 33)) =
      recode host .big ({w + 32} ∪ {w + 33}) x := by
    rw [reverse_eq host x, reverse_recode (by simp)]
  have hloop := foldl_reverse host (recode host .big ({w + 32} ∪ {w + 33}) x) (w + 34) 10
  rw [recode_union (by
    intro v hv hv'
    simp only [Set.mem_union, Set.mem_ofPred_eq, Set.mem_singleton_iff] at hv hv'
    omega), ← hfirst] at hloop
  unfold reverseFile
  rw [show 4 * w + 128 = 4 * (w + 32) by omega, show 4 * w + 132 = 4 * (w + 33) by omega,
    show 4 * w + 136 = 4 * (w + 34) by omega, show 4 * w + 176 = 4 * (w + 44) by omega]
  refine (congrArg (fun x => reverse host x (4 * (w + 44))) hloop).trans ?_
  rw [reverse_recode (by simp), hset]

/-- The loop over the structures stops at the first one without a name. -/
lemma reverseFiles_eq (host : Endian) (x : ℕ → Char8) (i k : ℕ) :
    reverseFiles host x i k = recode host .big
      {v | (i ≤ v / 64 ∧ v / 64 < i + k) ∧ (32 ≤ v % 64 ∧ v % 64 < 45) ∧
        ∀ l, i ≤ l → l ≤ v / 64 → x (256 * l) ≠ 0} x := by
  induction k generalizing i x with
  | zero =>
    refine (recode_empty host .big x).symm.trans (congrArg₂ _ ?_ rfl)
    ext v
    simp only [Set.mem_empty_iff_false, Set.mem_ofPred_eq, false_iff]
    omega
  | succ k ih =>
    rw [reverseFiles]
    split_ifs with h0
    · refine (recode_empty host .big x).symm.trans (congrArg₂ _ ?_ rfl)
      ext v
      simp only [Set.mem_empty_iff_false, Set.mem_ofPred_eq, false_iff]
      exact fun h => h.2.2 i le_rfl h.1.1 h0
    · have hfile := reverseFile_eq host x (64 * i)
      rw [show 4 * (64 * i) = 256 * i by omega] at hfile
      -- the names are not among the words that change
      have hname : ∀ l, reverseFile host x (256 * i) (256 * l) = x (256 * l) := fun l => by
        rw [hfile]
        refine recode_of_notMem fun h => ?_
        simp only [Set.mem_ofPred_eq] at h
        omega
      rw [ih]
      simp only [hname]
      rw [hfile, recode_union (fun v hv hv' => by
        simp only [Set.mem_ofPred_eq] at hv hv'
        omega)]
      congr 1
      ext v
      simp only [Set.mem_union, Set.mem_ofPred_eq]
      constructor
      · rintro (hv | ⟨hv, hf, hn⟩)
        · refine ⟨by omega, by omega, fun l hl hl' => ?_⟩
          obtain rfl : l = i := by omega
          exact h0
        · refine ⟨by omega, hf, fun l hl hl' => ?_⟩
          rcases hl.eq_or_lt with rfl | hlt
          · exact h0
          · exact hn l hlt hl'
      · rintro ⟨hv, hf, hn⟩
        rcases hv.1.eq_or_lt with hi | hlt
        · exact .inl (by omega)
        · exact .inr ⟨by omega, hf, fun l hl => hn l (by omega)⟩

/-- **`reverse_block`** brings the words of `reversedWords` into the big-endian order. -/
theorem reverseBlock_eq (host : Endian) (type : BlockType) (x : ℕ → Char8) :
    reverseBlock host type x = recode host .big (reversedWords type x) x := by
  have hloop : (List.range' 0 1024).foldl (fun x i => reverse host x (4 * i)) x =
      recode host .big {w | w < 1024} x := by
    have h := foldl_reverse host x 0 1024
    simpa only [Nat.mul_zero, Nat.zero_add, Nat.zero_le, true_and] using h
  cases type with
  | free => exact (recode_empty host .big x).symm
  | boot => exact (recode_empty host .big x).symm
  | data => exact (recode_empty host .big x).symm
  | index => exact hloop
  | bmap => exact hloop
  | super =>
    have hfile := reverseFile_eq host (recode host .big ({0} ∪ {1}) x) 2
    rw [recode_union (by
      intro v hv hv'
      simp only [Set.mem_union, Set.mem_ofPred_eq, Set.mem_singleton_iff] at hv hv'
      omega)] at hfile
    have hfirst : reverse host (reverse host x 0) 4 = recode host .big ({0} ∪ {1}) x := by
      have h0 := reverse_eq host x 0
      rw [Nat.mul_zero] at h0
      rw [h0]
      exact reverse_recode (w := 1) (by simp)
    refine (congrArg (fun x => reverseFile host x 8) hfirst).trans (hfile.trans ?_)
    refine congrArg (fun A => recode host .big A x) (Set.ext fun v => ?_)
    simp only [reversedWords, fieldWords, Set.mem_union, Set.mem_ofPred_eq, Set.mem_singleton_iff]
    omega
  | file =>
    refine (reverseFiles_eq host x 0 file2blk).trans ?_
    refine congrArg (fun A => recode host .big A x) (Set.ext fun v => ?_)
    simp only [reversedWords, fieldWords, NamedUpTo, Set.mem_ofPred_eq, Nat.zero_le, true_and,
      forall_const, file2blk, Nat.zero_add, and_assoc]

/-! ## The laws -/

/-- The names of the structures stay. -/
lemma namedUpTo_recode {j : ℕ} :
    NamedUpTo (recode host .big (reversedWords .file x) x) j ↔ NamedUpTo x j := by
  refine forall₂_congr fun l _ => ?_
  rw [recode_of_notMem fun h => ?_]
  have hfield := reversedWords_subset h
  simp only [fieldWords, Set.mem_ofPred_eq] at hfield
  omega

/-- The second time the same words are changed. -/
lemma reversedWords_recode (type : BlockType) (x : ℕ → Char8) :
    reversedWords type (recode host .big (reversedWords type x) x) = reversedWords type x := by
  cases type with
  | file => exact Set.ext fun w => and_congr_right fun _ => namedUpTo_recode
  | _ => rfl

/-- **`reverse_block` is its own inverse.** -/
theorem reverseBlock_reverseBlock (host : Endian) (type : BlockType) (x : ℕ → Char8) :
    reverseBlock host type (reverseBlock host type x) = x := by
  rw [reverseBlock_eq, reverseBlock_eq, reversedWords_recode, recode_recode]

/-- **`reverse_block` changes the fields of 32 bits only.** -/
theorem reverseBlock_of_notMem (host : Endian) (x : ℕ → Char8) (h : i / 4 ∉ fieldWords type) :
    reverseBlock host type x i = x i := by
  rw [reverseBlock_eq]
  exact recode_of_notMem fun hi => h (reversedWords_subset hi)

/-- On a big-endian host nothing is changed. -/
theorem reverseBlock_big (type : BlockType) (x : ℕ → Char8) : reverseBlock .big type x = x := by
  rw [reverseBlock_eq, recode_same]

end MosVolca
