import MosVolca.Library.ByteMemory
import MosVolca.Library.WhileLoop

/-!
# `memcpy` and `memset`

The memory routines of `lib/string.c`: single bytes up to a word boundary, then words, then the
bytes that are left. Pointers are numbers of 32 bits that wrap around, which the tests of the loops
do not take into account: with `dst + 4 <= max` the word loop does not end next to the end of the
address space.

## Main definitions

* `MosVolca.memcpy`, `MosVolca.memset` — the routines, with a bound on the rounds of each loop.
* `MosVolca.walk` — the three loops that both of them consist of.
* `MosVolca.Copies`, `MosVolca.Sets` — what the routines are for.

## Main results

* `MosVolca.Walks.exists_walk` — the three loops cover every byte once.
* `MosVolca.walk_eq_none` — next to the end of the address space they never end.
* `MosVolca.memcpy_memset_iff` — where the routines do what they are for.
-/

namespace MosVolca

open ByteMemory WhileLoop

/-- The variables of `memcpy`. -/
structure Copy where
  dst : BitVec 32
  src : BitVec 32
  mem : Memory 32

/-- `*(char *)dst++ = *(char *)src++`. -/
def copyByte (s : Copy) : Copy :=
  let r := s.mem.load8 s.src
  { dst := s.dst + 1, src := s.src + 1, mem := r.2.store8 s.dst r.1 }

/-- `*(uint32_t *)dst = *(uint32_t *)src`, and both pointers go to the next word. -/
def copyWord (s : Copy) : Copy :=
  let r := s.mem.load32 s.src
  { dst := s.dst + 4, src := s.src + 4, mem := r.2.store32 s.dst r.1 }

/-- The variables of `memset`. -/
structure Fill where
  dst : BitVec 32
  mem : Memory 32

/-- `*(u_char *)dst++ = byte`. -/
def fillByte (byte : BitVec 8) (s : Fill) : Fill :=
  { dst := s.dst + 1, mem := s.mem.store8 s.dst byte }

/-- `*(uint32_t *)dst = word`, and the pointer goes to the next word. -/
def fillWord (word : BitVec 32) (s : Fill) : Fill :=
  { dst := s.dst + 4, mem := s.mem.store32 s.dst word }

/-- The loops of both routines, for a pointer `dst` in the variables: bytes up to a word boundary,
words while possible, and the remaining bytes. -/
def walk {σ : Type} (dst : σ → BitVec 32) (byteStep wordStep : σ → σ) (max : BitVec 32)
    (fuel : ℕ) (s : σ) : Option σ := do
  let s ← run (fun s => dst s &&& 3 != 0 && decide (dst s < max)) byteStep fuel s
  let s ← run (fun s => decide (dst s + 4 ≤ max)) wordStep fuel s
  run (fun s => decide (dst s < max)) byteStep fuel s

/-- `memcpy`, with the pointer it returns and the memory. -/
def memcpy (fuel : ℕ) (dst src n : BitVec 32) (m : Memory 32) : Option (BitVec 32 × Memory 32) :=
  let max := dst + n
  if src &&& 3 ≠ dst &&& 3 then
    (run (fun s => decide (s.dst < max)) copyByte fuel ⟨dst, src, m⟩).map fun s => (dst, s.mem)
  else
    (walk Copy.dst copyByte copyWord max fuel ⟨dst, src, m⟩).map fun s => (dst, s.mem)

/-- `memset`, with the pointer it returns and the memory. -/
def memset (fuel : ℕ) (dst c n : BitVec 32) (m : Memory 32) : Option (BitVec 32 × Memory 32) :=
  let max := dst + n
  let byte := (c &&& 0xff).setWidth 8
  let word := byte.setWidth 32 ||| byte.setWidth 32 <<< 8 ||| byte.setWidth 32 <<< 16 |||
    byte.setWidth 32 <<< 24
  (walk Fill.dst (fillByte byte) (fillWord word) max fuel ⟨dst, m⟩).map fun s => (dst, s.mem)

/-! ## What the routines are for -/

/-- `memcpy` returns on every memory, with the `n` bytes of `src` at `dst` and no other change; it
reads from the source and writes to the destination only, words at multiples of four. -/
def Copies (dst src n : BitVec 32) : Prop :=
  ∀ f : BitVec 32 → BitVec 8, ∃ fuel m, memcpy fuel dst src n ⟨f, []⟩ = some (dst, m) ∧
    m.bytes = overlay f dst (fun j => f (src + BitVec.ofNat 32 j)) n.toNat ∧
    ∀ x ∈ m.log, x.Aligned ∧ x.Within (if x.write then dst else src) n.toNat

/-- `memset` returns on every memory, with the low byte of `c` in the `n` bytes at `dst` and no
other change; it writes there only, words at multiples of four. -/
def Sets (dst c n : BitVec 32) : Prop :=
  ∀ f : BitVec 32 → BitVec 8, ∃ fuel m, memset fuel dst c n ⟨f, []⟩ = some (dst, m) ∧
    m.bytes = overlay f dst (fun _ => c.setWidth 8) n.toNat ∧
    ∀ x ∈ m.log, x.write ∧ x.Aligned ∧ x.Within dst n.toNat

/-! ## The three loops -/

lemma toNat_and_three (a : BitVec 32) : (a &&& 3).toNat = a.toNat % 4 :=
  Nat.and_two_pow_sub_one_eq_mod a.toNat 2

lemma and_three_ne_zero (a : BitVec 32) : (a &&& 3 != 0) = decide (a.toNat % 4 ≠ 0) := by
  have h : a &&& 3 = 0 ↔ (a &&& 3).toNat = 0 := BitVec.toNat_inj.symm
  rw [← toNat_and_three, bne, beq_eq_decide, ← decide_not, decide_eq_decide]
  exact not_congr h

lemma and_three_eq_iff (a b : BitVec 32) : a &&& 3 = b &&& 3 ↔ a.toNat % 4 = b.toNat % 4 := by
  rw [← BitVec.toNat_inj, toNat_and_three, toNat_and_three]

variable {σ : Type} {p : σ → BitVec 32} {byteStep wordStep : σ → σ} {dst max : BitVec 32} {n : ℕ}
  {I : ℕ → σ → Prop} {s s' : σ} {fuel i : ℕ}

/-- The loops one after the other. -/
lemma walk_eq_some_iff : walk p byteStep wordStep max fuel s = some s' ↔
    ∃ s₁, run (fun s => p s &&& 3 != 0 && decide (p s < max)) byteStep fuel s = some s₁ ∧
      ∃ s₂, run (fun s => decide (p s + 4 ≤ max)) wordStep fuel s₁ = some s₂ ∧
        run (fun s => decide (p s < max)) byteStep fuel s₂ = some s' := by
  simp only [walk, Option.bind_eq_bind, Option.bind_eq_some_iff]

/-- What the loop over bytes keeps: `I i s` says that `i` bytes are done, and with them the pointer
has come `i` bytes far. -/
structure Steps (p : σ → BitVec 32) (byteStep : σ → σ) (dst : BitVec 32) (n : ℕ)
    (I : ℕ → σ → Prop) : Prop where
  pointer : ∀ i s, I i s → p s = dst + BitVec.ofNat 32 i
  byte : ∀ i s, I i s → i + 1 ≤ n → I (i + 1) (byteStep s)

/-- The same with words, from a word boundary on. -/
structure Walks (p : σ → BitVec 32) (byteStep wordStep : σ → σ) (dst : BitVec 32) (n : ℕ)
    (I : ℕ → σ → Prop) : Prop extends Steps p byteStep dst n I where
  word : ∀ i s, I i s → i + 4 ≤ n → (p s).toNat % 4 = 0 → I (i + 4) (wordStep s)

/-- `i` bytes are done, and the `n - i` bytes up to `max` are left without a wrap. -/
def Left (p : σ → BitVec 32) (max : BitVec 32) (n : ℕ) (I : ℕ → σ → Prop) (i : ℕ) (s : σ) : Prop :=
  I i s ∧ i ≤ n ∧ (p s).toNat + (n - i) = max.toNat

lemma Steps.left_byte (h : Steps p byteStep dst n I) (hs : Left p max n I i s)
    (hi : i + 1 ≤ n) : Left p max n I (i + 1) (byteStep s) := by
  obtain ⟨hI, -, hp⟩ := hs
  have hI' := h.byte i s hI hi
  refine ⟨hI', hi, ?_⟩
  have hmax := max.isLt
  rw [h.pointer i s hI] at hp
  rw [h.pointer _ _ hI', BitVec.ofNat_add, ← BitVec.add_assoc, BitVec.toNat_add, BitVec.toNat_ofNat]
  omega

lemma Walks.left_word (h : Walks p byteStep wordStep dst n I) (hs : Left p max n I i s)
    (hi : i + 4 ≤ n) (ha : (p s).toNat % 4 = 0) :
    Left p max n I (i + 4) (wordStep s) ∧ (p (wordStep s)).toNat % 4 = 0 := by
  obtain ⟨hI, -, hp⟩ := hs
  have hI' := h.word i s hI hi ha
  have hmax := max.isLt
  rw [h.pointer i s hI] at hp ha
  have hp' : (p (wordStep s)).toNat = (dst + BitVec.ofNat 32 i).toNat + 4 := by
    rw [h.pointer _ _ hI', BitVec.ofNat_add, ← BitVec.add_assoc, BitVec.toNat_add,
      BitVec.toNat_ofNat]
    omega
  exact ⟨⟨hI', hi, by omega⟩, by omega⟩

/-- The loop over single bytes does all that is left. -/
lemma Steps.exists_bytes (h : Steps p byteStep dst n I) (hs : Left p max n I i s)
    (hf : n < i + fuel) :
    ∃ s', run (fun s => decide (p s < max)) byteStep fuel s = some s' ∧ I n s' := by
  obtain ⟨j, s', hrun, -, -, ⟨hI, hj, hp⟩, hc⟩ := exists_run (I := Left p max n I) (n := n)
    (c := fun s => decide (p s < max)) (b := byteStep)
    (fun i s hs hc => by
      have hi : i + 1 ≤ n := by
        obtain ⟨-, -, hp⟩ := hs
        rw [decide_eq_true_eq, BitVec.lt_def] at hc
        omega
      exact ⟨i + 1, by omega, hi, h.left_byte hs hi⟩)
    hs hs.2.1 hf
  have hjn : j = n := by
    rw [decide_eq_false_iff_not, BitVec.lt_def] at hc
    omega
  exact ⟨s', hrun, hjn ▸ hI⟩

/-- From a word boundary on, the loops over words and single bytes do all that is left, if the end
is not within the last four bytes of the address space. -/
lemma Walks.exists_words (h : Walks p byteStep wordStep dst n I) (hs : Left p max n I i s)
    (ha : i < n → (p s).toNat % 4 = 0) (hmax : max.toNat < 2 ^ 32 - 4) {fuel' : ℕ}
    (hf : n < i + fuel) (hf' : n < i + fuel') :
    ∃ s₁, run (fun s => decide (p s + 4 ≤ max)) wordStep fuel s = some s₁ ∧
      ∃ s', run (fun s => decide (p s < max)) byteStep fuel' s₁ = some s' ∧ I n s' := by
  have hcond : ∀ i s, Left p max n I i s → decide (p s + 4 ≤ max) = true → i + 4 ≤ n := by
    rintro i s ⟨-, hi, hp⟩ hc
    rw [decide_eq_true_eq, BitVec.le_def, BitVec.toNat_add] at hc
    have h4 : (4 : BitVec 32).toNat = 4 := rfl
    omega
  obtain ⟨j, s₁, hrun, hij, -, ⟨hl, -⟩, -⟩ := exists_run (n := n)
    (I := fun i s => Left p max n I i s ∧ (i < n → (p s).toNat % 4 = 0))
    (fun i s hs hc => by
      have hi := hcond i s hs.1 hc
      obtain ⟨hl, hal⟩ := h.left_word hs.1 hi (hs.2 (by omega))
      exact ⟨i + 4, by omega, hi, hl, fun _ => hal⟩)
    ⟨hs, ha⟩ hs.2.1 hf
  exact ⟨s₁, hrun, h.exists_bytes hl (by omega)⟩

/-- **The three loops cover every byte once**, if the end is not within the last four bytes of the
address space. -/
theorem Walks.exists_walk (h : Walks p byteStep wordStep dst n I) (hI : I 0 s)
    (hend : dst.toNat + n < 2 ^ 32 - 4) (hf : n < fuel) :
    ∃ s', walk p byteStep wordStep (dst + BitVec.ofNat 32 n) fuel s = some s' ∧ I n s' := by
  have hmax : (dst + BitVec.ofNat 32 n).toNat = dst.toNat + n := by
    rw [BitVec.toNat_add, BitVec.toNat_ofNat]
    omega
  have hs : Left p (dst + BitVec.ofNat 32 n) n I 0 s := by
    refine ⟨hI, Nat.zero_le n, ?_⟩
    have hp : p s = dst := by simpa using h.pointer 0 s hI
    rw [hp, hmax]
    omega
  obtain ⟨i, s₁, hrun₁, -, -, hl, hc⟩ := exists_run (n := n)
    (c := fun s => p s &&& 3 != 0 && decide (p s < dst + BitVec.ofNat 32 n))
    (b := byteStep) (I := Left p (dst + BitVec.ofNat 32 n) n I)
    (fun i s hs hc => by
      have hlt : i + 1 ≤ n := by
        obtain ⟨-, -, hp⟩ := hs
        rw [Bool.and_eq_true, decide_eq_true_eq, BitVec.lt_def] at hc
        omega
      exact ⟨i + 1, by omega, hlt, h.left_byte hs hlt⟩)
    hs (Nat.zero_le n) (by omega : n < 0 + fuel)
  have ha : i < n → (p s₁).toNat % 4 = 0 := by
    intro hi
    obtain ⟨-, -, hp⟩ := hl
    rw [and_three_ne_zero, Bool.and_eq_false_iff, decide_eq_false_iff_not, decide_eq_false_iff_not,
      BitVec.lt_def] at hc
    omega
  obtain ⟨s₂, hrun₂, s', hrun₃, hI'⟩ := h.exists_words hl ha (by omega) (by omega : n < i + fuel)
    (by omega : n < i + fuel)
  exact ⟨s', walk_eq_some_iff.mpr ⟨s₁, hrun₁, s₂, hrun₂, hrun₃⟩, hI'⟩

/-- **Next to the end of the address space the loops never end**: `dst + 4 <= max` holds of every
pointer that the word loop comes to. -/
theorem walk_eq_none (hbyte : ∀ s, p (byteStep s) = p s + 1) (hword : ∀ s, p (wordStep s) = p s + 4)
    (hs : (p s).toNat ≤ max.toNat) (hmax : 2 ^ 32 - 4 ≤ max.toNat) :
    walk p byteStep wordStep max fuel s = none := by
  have h1 : (1 : BitVec 32).toNat = 1 := rfl
  have h4 : (4 : BitVec 32).toNat = 4 := rfl
  have hlt := max.isLt
  by_contra hsome
  obtain ⟨s', hs'⟩ := Option.ne_none_iff_exists'.mp hsome
  obtain ⟨s₁, hrun₁, s₂, hrun₂, -⟩ := walk_eq_some_iff.mp hs'
  obtain ⟨hle, hc⟩ := run_invariant (I := fun s => (p s).toNat ≤ max.toNat)
    (fun s hs hc => by
      rw [Bool.and_eq_true, decide_eq_true_eq, BitVec.lt_def] at hc
      rw [hbyte, BitVec.toNat_add]
      omega) hs hrun₁
  rw [and_three_ne_zero, Bool.and_eq_false_iff, decide_eq_false_iff_not, decide_eq_false_iff_not,
    BitVec.lt_def] at hc
  -- the pointer keeps its remainder, and no larger pointer with that remainder is beyond `max`
  have hnone := run_eq_none (b := wordStep) (c := fun s => decide (p s + 4 ≤ max))
    (I := fun s => (p s).toNat % 4 = 0 ∨ (p s).toNat % 4 = max.toNat % 4)
    (fun s hs => by
      rw [hword, decide_eq_true_eq, BitVec.le_def, BitVec.toNat_add]
      omega)
    (by omega : (p s₁).toNat % 4 = 0 ∨ (p s₁).toNat % 4 = max.toNat % 4) fuel
  rw [hnone] at hrun₂
  cases hrun₂

/-- No loop is entered where the end is before the pointer and a word does not wrap to before it. -/
lemma walk_eq_self (h : ¬ p s < max) (h4 : ¬ p s + 4 ≤ max)
    (hrun : walk p byteStep wordStep max fuel s = some s') : s' = s := by
  obtain ⟨s₁, hrun₁, s₂, hrun₂, hrun₃⟩ := walk_eq_some_iff.mp hrun
  cases fuel with
  | zero => cases hrun₁
  | succ fuel =>
    rw [run_of_false (by simp [h])] at hrun₁
    obtain rfl := Option.some.inj hrun₁
    rw [run_of_false (by simpa using h4)] at hrun₂
    obtain rfl := Option.some.inj hrun₂
    rw [run_of_false (by simpa using h)] at hrun₃
    exact (Option.some.inj hrun₃).symm

/-- What holds behind a first word, and is kept, holds at the end. -/
lemma walk_word_first {J : σ → Prop} (h : ¬ p s < max) (h4 : p s + 4 ≤ max) (hJ : J (wordStep s))
    (hb : ∀ s, J s → J (byteStep s)) (hw : ∀ s, J s → J (wordStep s))
    (hrun : walk p byteStep wordStep max fuel s = some s') : J s' := by
  obtain ⟨s₁, hrun₁, s₂, hrun₂, hrun₃⟩ := walk_eq_some_iff.mp hrun
  cases fuel with
  | zero => cases hrun₁
  | succ fuel =>
    rw [run_of_false (by simp [h])] at hrun₁
    obtain rfl := Option.some.inj hrun₁
    rw [run_of_true (by simpa using h4)] at hrun₂
    have hJ₂ := (run_invariant (fun s hs _ => hw s hs) hJ hrun₂).1
    exact (run_invariant (fun s hs _ => hb s hs) hJ₂ hrun₃).1

/-- In the last word of the address space the end may be behind the wrap: the first word goes
across it, and the rest is as anywhere else. -/
lemma Walks.exists_walk_last (h : Walks p byteStep wordStep dst n I) (hI : I 0 s)
    (hdst : dst.toNat = 2 ^ 32 - 4) (hn : 4 ≤ n) (hn' : n < 2 ^ 32) (hf : n < fuel) :
    ∃ s', walk p byteStep wordStep (dst + BitVec.ofNat 32 n) fuel s = some s' ∧ I n s' := by
  have hmax : (dst + BitVec.ofNat 32 n).toNat = n - 4 := by
    rw [BitVec.toNat_add, BitVec.toNat_ofNat]
    omega
  have hp : p s = dst := by simpa using h.pointer 0 s hI
  have hI' := h.word 0 s hI (by omega) (by rw [hp]; omega)
  have hs : Left p (dst + BitVec.ofNat 32 n) n I 4 (wordStep s) := by
    refine ⟨by simpa using hI', hn, ?_⟩
    rw [h.pointer _ _ hI', hmax, BitVec.toNat_add, hdst, BitVec.toNat_ofNat]
    omega
  have hzero : (p (wordStep s)).toNat % 4 = 0 := by
    rw [h.pointer _ _ hI', BitVec.toNat_add, hdst, BitVec.toNat_ofNat]
    rfl
  obtain ⟨f, rfl⟩ := Nat.exists_eq_add_of_lt hf
  obtain ⟨s₂, hrun₂, s', hrun₃, hI₃⟩ := h.exists_words hs (fun _ => hzero) (by omega)
    (by omega : n < 4 + (n + f)) (by omega : n < 4 + (n + f + 1))
  refine ⟨s', ?_, hI₃⟩
  have hlt : ¬ p s < dst + BitVec.ofNat 32 n := by
    rw [hp, BitVec.lt_def]
    omega
  have hle : p s + 4 ≤ dst + BitVec.ofNat 32 n := by
    have h4 : (4 : BitVec 32).toNat = 4 := rfl
    rw [hp, BitVec.le_def, BitVec.toNat_add, hdst, h4]
    omega
  refine walk_eq_some_iff.mpr ⟨s, run_of_false (by simp [hlt]), s₂, ?_, hrun₃⟩
  rw [run_of_true (by simpa using hle), hrun₂]

/-! ## `memcpy` -/

variable {src c : BitVec 32} {f : BitVec 32 → BitVec 8} {m : Memory 32}

/-- The ranges of a call do not wrap, and do not overlap. -/
structure Apart (dst src n : BitVec 32) : Prop where
  dst_end : dst.toNat + n.toNat ≤ 2 ^ 32
  src_end : src.toNat + n.toNat ≤ 2 ^ 32
  disjoint : dst.toNat + n.toNat ≤ src.toNat ∨ src.toNat + n.toNat ≤ dst.toNat

/-- `i` bytes are copied, and all accesses were in order. -/
structure Copied (dst src : BitVec 32) (n : ℕ) (f : BitVec 32 → BitVec 8) (i : ℕ) (s : Copy) :
    Prop where
  dst_eq : s.dst = dst + BitVec.ofNat 32 i
  src_eq : s.src = src + BitVec.ofNat 32 i
  bytes : s.mem.bytes = overlay f dst (fun j => f (src + BitVec.ofNat 32 j)) i
  log : ∀ x ∈ s.mem.log, x.Aligned ∧ x.Within (if x.write then dst else src) n

/-- The bytes from the current place on are part of the range. -/
lemma within_of_add {a : BitVec 32} {k : ℕ} {b : Bool} (hn : n < 2 ^ 32) (hi : i + k ≤ n) :
    (⟨b, k, a + BitVec.ofNat 32 i⟩ : Access 32).Within a n := by
  intro j hj
  simp only at hj ⊢
  rw [BitVec.add_assoc, ← BitVec.ofNat_add, toNat_add_sub (by omega)]
  omega

lemma add_one_ofNat (a : BitVec 32) (i : ℕ) :
    a + BitVec.ofNat 32 i + 1 = a + BitVec.ofNat 32 (i + 1) := by
  rw [BitVec.add_assoc, BitVec.ofNat_add]
  rfl

lemma add_four_ofNat (a : BitVec 32) (i : ℕ) :
    a + BitVec.ofNat 32 i + 4 = a + BitVec.ofNat 32 (i + 4) := by
  rw [BitVec.add_assoc, BitVec.ofNat_add]
  rfl

/-- The source is not part of what is written. -/
lemma Apart.le_toNat_sub {n : BitVec 32} (h : Apart dst src n) (hi : i < n.toNat) :
    n.toNat ≤ (src + BitVec.ofNat 32 i - dst).toNat := by
  obtain ⟨h1, h2, h3⟩ := h
  rw [BitVec.toNat_sub, BitVec.toNat_add, BitVec.toNat_ofNat]
  omega

/-- A byte of the source is still there when it is read. -/
lemma Apart.overlay_src {n : BitVec 32} {g : ℕ → BitVec 8} (h : Apart dst src n) {j : ℕ}
    (hi : i ≤ n.toNat) (hj : j < n.toNat) :
    overlay f dst g i (src + BitVec.ofNat 32 j) = f (src + BitVec.ofNat 32 j) :=
  overlay_of_le (hi.trans (h.le_toNat_sub hj))

/-- A round of the byte loop copies a byte. -/
lemma Copied.copyByte {n : BitVec 32} {s : Copy} (h : Apart dst src n)
    (hs : Copied dst src n.toNat f i s) (hi : i + 1 ≤ n.toNat) :
    Copied dst src n.toNat f (i + 1) (copyByte s) := by
  obtain ⟨hdst, hsrc, hbytes, hlog⟩ := hs
  refine ⟨?_, ?_, ?_, ?_⟩
  · rw [MosVolca.copyByte, hdst, add_one_ofNat]
  · rw [MosVolca.copyByte, hsrc, add_one_ofNat]
  · simp only [MosVolca.copyByte, Memory.load8, Memory.store8]
    rw [hdst, hsrc, hbytes, h.overlay_src (by omega) (by omega)]
    exact update_overlay (by omega)
  · simp only [MosVolca.copyByte, Memory.load8, Memory.store8, List.mem_cons]
    rintro x (rfl | rfl | hx)
    · exact ⟨by simp [Access.Aligned], hdst ▸ within_of_add n.isLt hi⟩
    · exact ⟨by simp [Access.Aligned], hsrc ▸ within_of_add n.isLt hi⟩
    · exact hlog x hx

/-- A round of the word loop copies four bytes. -/
lemma Copied.copyWord {n : BitVec 32} {s : Copy} (h : Apart dst src n)
    (heq : src.toNat % 4 = dst.toNat % 4) (hs : Copied dst src n.toNat f i s)
    (hi : i + 4 ≤ n.toNat) (ha : s.dst.toNat % 4 = 0) :
    Copied dst src n.toNat f (i + 4) (copyWord s) := by
  obtain ⟨hdst, hsrc, hbytes, hlog⟩ := hs
  have ha' : s.src.toNat % 4 = 0 := by
    rw [hdst, BitVec.toNat_add] at ha
    rw [hsrc, BitVec.toNat_add]
    omega
  refine ⟨?_, ?_, ?_, ?_⟩
  · rw [MosVolca.copyWord, hdst, add_four_ofNat]
  · rw [MosVolca.copyWord, hsrc, add_four_ofNat]
  · simp only [MosVolca.copyWord, Memory.load32, Memory.store32]
    rw [hdst, hsrc, hbytes]
    refine putWord32_overlay (by omega) fun j hj => ?_
    rw [byteOf_word32At hj, BitVec.add_assoc, ← BitVec.ofNat_add]
    exact h.overlay_src (by omega) (by omega)
  · simp only [MosVolca.copyWord, Memory.load32, Memory.store32, List.mem_cons]
    rintro x (rfl | rfl | hx)
    · exact ⟨fun _ => ha, hdst ▸ within_of_add n.isLt hi⟩
    · exact ⟨fun _ => ha', hsrc ▸ within_of_add n.isLt hi⟩
    · exact hlog x hx

lemma copied_zero : Copied dst src n f 0 ⟨dst, src, ⟨f, []⟩⟩ :=
  ⟨by simp, by simp, overlay_zero.symm, by simp⟩

/-- The loops of `memcpy` on ranges with the same alignment. -/
lemma walks_copied {n : BitVec 32} (h : Apart dst src n) (heq : src.toNat % 4 = dst.toNat % 4) :
    Walks Copy.dst copyByte copyWord dst n.toNat (Copied dst src n.toNat f) where
  pointer _ _ hs := hs.dst_eq
  byte _ _ hs hi := hs.copyByte h hi
  word _ _ hs hi ha := hs.copyWord h heq hi ha

/-- `memcpy` on ranges that end before the last word of the address space, or, byte by byte, before
its end. -/
lemma copies_of_lt {n : BitVec 32} (h : Apart dst src n)
    (hend : if src.toNat % 4 = dst.toNat % 4
      then dst.toNat + n.toNat < 2 ^ 32 - 4 ∨ dst.toNat = 2 ^ 32 - 4 ∧ n.toNat = 4
      else dst.toNat + n.toNat < 2 ^ 32) : Copies dst src n := by
  intro f
  have hn : dst + n = dst + BitVec.ofNat 32 n.toNat := by rw [BitVec.ofNat_toNat, BitVec.setWidth_eq]
  have hret : ∀ s, Copied dst src n.toNat f n.toNat s →
      memcpy (n.toNat + 1) dst src n ⟨f, []⟩ = some (dst, s.mem) →
        ∃ fuel m, memcpy fuel dst src n ⟨f, []⟩ = some (dst, m) ∧
          m.bytes = overlay f dst (fun j => f (src + BitVec.ofNat 32 j)) n.toNat ∧
          ∀ x ∈ m.log, x.Aligned ∧ x.Within (if x.write then dst else src) n.toNat :=
    fun s hs hrun => ⟨n.toNat + 1, s.mem, hrun, hs.bytes, hs.log⟩
  by_cases heq : src.toNat % 4 = dst.toNat % 4
  · rw [if_pos heq] at hend
    have heq' : ¬ src &&& 3 ≠ dst &&& 3 := not_not.mpr ((and_three_eq_iff src dst).mpr heq)
    obtain ⟨s, hwalk, hs⟩ : ∃ s, walk Copy.dst copyByte copyWord (dst + n) (n.toNat + 1)
        ⟨dst, src, ⟨f, []⟩⟩ = some s ∧ Copied dst src n.toNat f n.toNat s := by
      rw [hn]
      rcases hend with hlt | ⟨hdst, h4⟩
      · exact (walks_copied h heq).exists_walk copied_zero hlt (by omega)
      · exact (walks_copied h heq).exists_walk_last copied_zero hdst (by omega) n.isLt (by omega)
    exact hret s hs (by rw [memcpy, if_neg heq', hwalk, Option.map_some])
  · rw [if_neg heq] at hend
    have heq' : src &&& 3 ≠ dst &&& 3 := fun h3 => heq ((and_three_eq_iff src dst).mp h3)
    have hleft : Left Copy.dst (dst + n) n.toNat (Copied dst src n.toNat f) 0
        ⟨dst, src, ⟨f, []⟩⟩ := by
      refine ⟨copied_zero, Nat.zero_le _, ?_⟩
      simp only
      rw [BitVec.toNat_add]
      omega
    have hsteps : Steps Copy.dst copyByte dst n.toNat (Copied dst src n.toNat f) :=
      ⟨fun _ _ hs => hs.dst_eq, fun _ _ hs hi => hs.copyByte h hi⟩
    obtain ⟨s, hrun, hs⟩ := hsteps.exists_bytes hleft (by omega : n.toNat < 0 + (n.toNat + 1))
    exact hret s hs (by rw [memcpy, if_pos heq', hrun, Option.map_some])

/-- Where `memcpy` leaves the memory as it is, it does not copy. -/
lemma not_copies_of_unchanged {n : BitVec 32} (h : Apart dst src n) (hn : n.toNat ≠ 0)
    (hself : ∀ fuel f m, memcpy fuel dst src n ⟨f, []⟩ = some (dst, m) → m.bytes = f) :
    ¬ Copies dst src n := by
  intro hc
  -- the destination differs from the source in its first byte
  obtain ⟨fuel, m, hrun, hbytes, -⟩ := hc fun a => if a = dst then 0 else 1
  have hne : src ≠ dst := by
    rintro rfl
    have := h.le_toNat_sub (i := 0) (by omega)
    simp at this
    omega
  rw [hself _ _ _ hrun] at hbytes
  have hdst := congrFun hbytes (dst + BitVec.ofNat 32 0)
  rw [overlay_add n.isLt.le (by omega)] at hdst
  simp [hne] at hdst

/-- **When `memcpy` copies**: the destination of a copy by words may not reach the last word of the
address space (it may be this word), and the end of a copy by bytes may not be the end of the
address space. -/
theorem copies_iff {n : BitVec 32} (h : Apart dst src n) :
    Copies dst src n ↔ if src.toNat % 4 = dst.toNat % 4
      then dst.toNat + n.toNat < 2 ^ 32 - 4 ∨ dst.toNat = 2 ^ 32 - 4 ∧ n.toNat = 4
      else dst.toNat + n.toNat < 2 ^ 32 := by
  refine ⟨fun hc => ?_, copies_of_lt h⟩
  have hd := h.dst_end
  have hlt := dst.isLt
  by_contra hend
  by_cases hwrap : dst.toNat + n.toNat < 2 ^ 32
  · -- the word loop of a copy by words does not end
    have heq : src.toNat % 4 = dst.toNat % 4 := by
      by_contra heq
      rw [if_neg heq] at hend
      exact hend hwrap
    rw [if_pos heq] at hend
    have heq' : ¬ src &&& 3 ≠ dst &&& 3 := not_not.mpr ((and_three_eq_iff src dst).mpr heq)
    obtain ⟨fuel, m, hrun, -⟩ := hc fun _ => 0
    have hnone : walk Copy.dst copyByte copyWord (dst + n) fuel ⟨dst, src, ⟨fun _ => 0, []⟩⟩ =
        none := by
      refine walk_eq_none (fun _ => rfl) (fun _ => rfl) ?_ ?_ <;> simp only [BitVec.toNat_add] <;>
        omega
    rw [memcpy, if_neg heq', hnone] at hrun
    cases hrun
  · -- the end is address 0, and no loop is entered
    have hmax : (dst + n).toNat = 0 := by
      rw [BitVec.toNat_add]
      omega
    have hlt' : ¬ dst < dst + n := by
      rw [BitVec.lt_def]
      omega
    refine not_copies_of_unchanged h (by omega) (fun fuel f m hrun => ?_) hc
    rw [memcpy] at hrun
    split at hrun
    · cases fuel with
      | zero => cases hrun
      | succ fuel =>
        rw [run_of_false (by simpa using hlt'), Option.map_some] at hrun
        obtain rfl := (Prod.mk.inj (Option.some.inj hrun)).2
        rfl
    · rename_i heq'
      rw [if_pos ((and_three_eq_iff src dst).mp (not_not.mp heq'))] at hend
      have h4 : ¬ dst + 4 ≤ dst + n := by
        have hfour : (4 : BitVec 32).toNat = 4 := rfl
        rw [BitVec.le_def, BitVec.toNat_add, hfour]
        omega
      obtain ⟨s, hwalk, hs⟩ := Option.map_eq_some_iff.mp hrun
      obtain rfl := walk_eq_self hlt' h4 hwalk
      obtain rfl := (Prod.mk.inj hs).2
      rfl

/-! ## `memset` -/

/-- `i` bytes are set, and all accesses were in order. -/
structure Filled (dst : BitVec 32) (byte : BitVec 8) (n : ℕ) (f : BitVec 32 → BitVec 8) (i : ℕ)
    (s : Fill) : Prop where
  dst_eq : s.dst = dst + BitVec.ofNat 32 i
  bytes : s.mem.bytes = overlay f dst (fun _ => byte) i
  log : ∀ x ∈ s.mem.log, x.write ∧ x.Aligned ∧ x.Within dst n

variable {byte : BitVec 8}

lemma Filled.fillByte {s : Fill} (hn : n < 2 ^ 32) (hs : Filled dst byte n f i s) (hi : i + 1 ≤ n) :
    Filled dst byte n f (i + 1) (fillByte byte s) := by
  obtain ⟨hdst, hbytes, hlog⟩ := hs
  refine ⟨?_, ?_, ?_⟩
  · rw [MosVolca.fillByte, hdst, add_one_ofNat]
  · simp only [MosVolca.fillByte, Memory.store8]
    rw [hdst, hbytes]
    exact update_overlay (g := fun _ => byte) (by omega)
  · simp only [MosVolca.fillByte, Memory.store8, List.mem_cons]
    rintro x (rfl | hx)
    · exact ⟨rfl, by simp [Access.Aligned], hdst ▸ within_of_add hn hi⟩
    · exact hlog x hx

/-- The word that `memset` stores has the byte four times. -/
lemma Filled.fillWord {s : Fill} {a : BitVec 32} (hn : n < 2 ^ 32) (hs : Filled dst byte n f i s)
    (hi : i + 4 ≤ n) (ha : s.dst.toNat % 4 = 0) :
    Filled dst byte n f (i + 4) (fillWord (word32At (fun _ => byte) a) s) := by
  obtain ⟨hdst, hbytes, hlog⟩ := hs
  refine ⟨?_, ?_, ?_⟩
  · rw [MosVolca.fillWord, hdst, add_four_ofNat]
  · simp only [MosVolca.fillWord, Memory.store32]
    rw [hdst, hbytes]
    exact putWord32_overlay (by omega) fun j hj => byteOf_word32At hj
  · simp only [MosVolca.fillWord, Memory.store32, List.mem_cons]
    rintro x (rfl | hx)
    · exact ⟨rfl, fun _ => ha, hdst ▸ within_of_add hn hi⟩
    · exact hlog x hx

/-- The byte and the word of `memset`. -/
lemma memset_eq (fuel : ℕ) (dst c n : BitVec 32) (m : Memory 32) :
    memset fuel dst c n m =
      (walk Fill.dst (fillByte (c.setWidth 8)) (fillWord (word32At (fun _ => c.setWidth 8) dst))
        (dst + n) fuel ⟨dst, m⟩).map fun s => (dst, s.mem) := by
  have hbyte : (c &&& 0xff).setWidth 8 = c.setWidth 8 := by
    apply BitVec.eq_of_getLsbD_eq
    intro i hi
    have hff : (0xff : BitVec 32).getLsbD i = true := by
      have h : ∀ k < 8, (0xff : BitVec 32).getLsbD k = true := by decide
      exact h i hi
    rw [BitVec.getLsbD_setWidth, BitVec.getLsbD_setWidth, BitVec.getLsbD_and, hff, Bool.and_true]
  unfold memset
  rw [hbyte]
  rfl

/-- `memset` next to the end of the address space. -/
lemma memset_eq_none {n : BitVec 32} (hle : dst.toNat ≤ (dst + n).toNat)
    (hmax : 2 ^ 32 - 4 ≤ (dst + n).toNat) (fuel : ℕ) (c : BitVec 32) (m : Memory 32) :
    memset fuel dst c n m = none := by
  rw [memset_eq, walk_eq_none (p := Fill.dst) (fun _ => rfl) (fun _ => rfl) hle hmax,
    Option.map_none]

lemma sets_of_exists {n : BitVec 32}
    (h : ∀ f, ∃ s, walk Fill.dst (fillByte (c.setWidth 8))
      (fillWord (word32At (fun _ => c.setWidth 8) dst)) (dst + n) (n.toNat + 1) ⟨dst, ⟨f, []⟩⟩ =
        some s ∧ Filled dst (c.setWidth 8) n.toNat f n.toNat s) : Sets dst c n := by
  intro f
  obtain ⟨s, hwalk, hs⟩ := h f
  exact ⟨n.toNat + 1, s.mem, by rw [memset_eq, hwalk, Option.map_some], hs.bytes, hs.log⟩

/-- **When `memset` sets the bytes**: the range does not reach the last word of the address space,
or it starts with this word. -/
theorem sets_iff {n : BitVec 32} :
    Sets dst c n ↔
      dst.toNat + n.toNat < 2 ^ 32 - 4 ∨ dst.toNat = 2 ^ 32 - 4 ∧ 4 ≤ n.toNat := by
  have hlt := dst.isLt
  have hn := n.isLt
  have hfour : (4 : BitVec 32).toNat = 4 := rfl
  constructor
  · intro hs
    by_contra hend
    by_cases hwrap : dst.toNat + n.toNat < 2 ^ 32
    · -- the word loop does not end
      obtain ⟨fuel, m, hrun, -⟩ := hs fun _ => 0
      have hmax : (dst + n).toNat = dst.toNat + n.toNat := by
        rw [BitVec.toNat_add]
        omega
      rw [memset_eq_none (by omega) (by omega)] at hrun
      cases hrun
    · have hmax : (dst + n).toNat = dst.toNat + n.toNat - 2 ^ 32 := by
        rw [BitVec.toNat_add]
        omega
      have hlt' : ¬ dst < dst + n := by
        rw [BitVec.lt_def]
        omega
      by_cases h4 : dst + 4 ≤ dst + n
      · -- the first access is to a word that is not aligned
        obtain ⟨fuel, m, hrun, -, hlog⟩ := hs fun _ => 0
        rw [memset_eq] at hrun
        obtain ⟨s, hwalk, hs⟩ := Option.map_eq_some_iff.mp hrun
        have hbad : (⟨true, 4, dst⟩ : Access 32) ∈ s.mem.log :=
          walk_word_first (J := fun s => (⟨true, 4, dst⟩ : Access 32) ∈ s.mem.log) hlt' h4
            List.mem_cons_self (fun _ h => List.mem_cons_of_mem _ h)
            (fun _ h => List.mem_cons_of_mem _ h) hwalk
        rw [(Prod.mk.inj hs).2] at hbad
        have hal := (hlog _ hbad).2.1 rfl
        rw [BitVec.le_def, BitVec.toNat_add, hfour] at h4
        simp only at hal
        omega
      · -- nothing is set
        obtain ⟨fuel, m, hrun, hbytes, -⟩ := hs fun _ => ~~~ c.setWidth 8
        rw [memset_eq] at hrun
        obtain ⟨s, hwalk, hs⟩ := Option.map_eq_some_iff.mp hrun
        obtain rfl := walk_eq_self hlt' h4 hwalk
        rw [← (Prod.mk.inj hs).2] at hbytes
        have hdst := congrFun hbytes (dst + BitVec.ofNat 32 0)
        rw [overlay_add n.isLt.le (by omega)] at hdst
        simp at hdst
  · intro hend
    refine sets_of_exists fun f => ?_
    have hw : Walks Fill.dst (fillByte (c.setWidth 8))
        (fillWord (word32At (fun _ => c.setWidth 8) dst)) dst n.toNat
        (Filled dst (c.setWidth 8) n.toNat f) :=
      ⟨⟨fun _ _ hs => hs.dst_eq, fun _ _ hs hi => hs.fillByte n.isLt hi⟩,
        fun _ _ hs hi ha => hs.fillWord n.isLt hi ha⟩
    have h0 : Filled dst (c.setWidth 8) n.toNat f 0 ⟨dst, ⟨f, []⟩⟩ :=
      ⟨by simp, overlay_zero.symm, by simp⟩
    have hmax : dst + n = dst + BitVec.ofNat 32 n.toNat := by
      rw [BitVec.ofNat_toNat, BitVec.setWidth_eq]
    rw [hmax]
    rcases hend with hlt' | ⟨hdst, h4⟩
    · exact hw.exists_walk h0 hlt' (by omega)
    · exact hw.exists_walk_last h0 hdst h4 n.isLt (by omega)

/-- **When the word-wise routines equal the byte-wise ones**: `memcpy` on all ranges that neither
wrap nor overlap, `memset` on all ranges. -/
theorem memcpy_memset_iff (dst src c n : BitVec 32) :
    (Apart dst src n →
      (Copies dst src n ↔ if src.toNat % 4 = dst.toNat % 4
        then dst.toNat + n.toNat < 2 ^ 32 - 4 ∨ dst.toNat = 2 ^ 32 - 4 ∧ n.toNat = 4
        else dst.toNat + n.toNat < 2 ^ 32)) ∧
      (Sets dst c n ↔
        dst.toNat + n.toNat < 2 ^ 32 - 4 ∨ dst.toNat = 2 ^ 32 - 4 ∧ 4 ≤ n.toNat) :=
  ⟨copies_iff, sets_iff⟩

/-- A single byte, the first one of the last word of the address space: the loops do not end. -/
theorem memset_last_word :
    ¬ ∀ dst c n : BitVec 32, dst.toNat + n.toNat < 2 ^ 32 → Sets dst c n := by
  intro h
  obtain ⟨fuel, m, hrun, -⟩ := h 0xfffffffc 0 1 (by decide) fun _ => 0
  rw [memset_eq_none (by decide) (by decide)] at hrun
  cases hrun

/-- Eight bytes to the next place with the same alignment. -/
theorem copies_eight :
    Apart 0x400008 0x400000 8 ∧ Copies 0x400008 0x400000 8 ∧ Sets 0x400008 0x100 8 := by
  have hapart : Apart 0x400008 0x400000 8 := ⟨by decide, by decide, by decide⟩
  obtain ⟨hcopies, hsets⟩ := memcpy_memset_iff 0x400008 0x400000 0x100 8
  exact ⟨hapart, (hcopies hapart).mpr (by decide), hsets.mpr (by decide)⟩

end MosVolca
