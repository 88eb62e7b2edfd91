import MosVolca.Fs.CacheCases

/-!
# The bit of a block, and its page

What `block_is_free`, `free_block` and `alloc_block_num` do to the bitmap, which the server keeps in
the cache from block 2 on, and what `unmap_block` does to the cache. Every block has one bit, and
the three functions agree on it; `alloc_block_num` also writes the bitmap block with it to the disk.
`unmap_block` returns at once if the block is in the cache, so it unmaps no block at all.

## Main definitions

* `MosVolca.LeastFree` — the block that an allocation should give.
* `MosVolca.Allocates`, `MosVolca.Frees` — the changes of the bitmap.
* `MosVolca.Unmaps` — what `unmap_block` should do.

## Main results

* `MosVolca.allocBlockNum_spec` — the bitmap.
* `MosVolca.unmapBlock_iff` — when `unmap_block` unmaps a block.
-/

namespace MosVolca

variable {s s' : BlockCache} {b v k : ℕ}

/-! ## The bitmap -/

/-- The bitmap as `read_bitmap` leaves it: the pointers are set, the super block is not too large,
and the bitmap blocks are in the cache. -/
structure BitmapCached (s : BlockCache) : Prop where
  super : s.super = true
  bitmap : s.bitmap = true
  small : s.nblocks ≤ 0x40000
  mapped : ∀ i < s.nbitmap, s.mapped (i + 2) = true

/-- The smallest free block from 3 on. -/
structure LeastFree (s : BlockCache) (b : ℕ) : Prop where
  ge : 3 ≤ b
  lt : b < s.nblocks
  free : Bitmap.test s.bits b = true
  least : ∀ v, 3 ≤ v → v < b → Bitmap.test s.bits v = false

/-- Nothing changes in the cache but the words of the bitmap `bits`, and there only the bit of `b`,
which becomes `free`. -/
structure SetsBit (s s' : BlockCache) (b : ℕ) (free : Bool) : Prop where
  self : Bitmap.test s'.bits b = free
  others : ∀ v ≠ b, Bitmap.test s'.bits v = Bitmap.test s.bits v
  words : ∀ p ≠ BlockCache.bitsPtr (b / 32), s'.load p = s.load p
  pages : s'.mapped = s.mapped ∧ s'.dirty = s.dirty ∧ s'.grants = s.grants
  pointers : s'.super = s.super ∧ s'.bitmap = s.bitmap

/-- **The block is allocated**: its bit is cleared in the cache, and the bitmap block with it is
written to the disk, where the block is in use too. -/
structure Allocates (s s' : BlockCache) (b : ℕ) : Prop where
  bit : SetsBit s s' b false
  written : s'.disk (b / 32768 + 2) = s'.mem (b / 32768 + 2)
  blocks : ∀ q ≠ b / 32768 + 2, s'.disk q = s.disk q
  used : Bitmap.test (bitsOf s'.disk) b = false

/-- **The block is set free** in the cache. -/
structure Frees (s s' : BlockCache) (b : ℕ) : Prop where
  bit : SetsBit s s' b true
  disk : s'.disk = s.disk

/-- The bit that the test with a mask looks at. -/
lemma mask_test (s : BlockCache) (b : ℕ) :
    decide (s.bits (b / 32) &&& Bitmap.mask 32 b ≠ 0) = Bitmap.test s.bits b := by
  have hmask := Bitmap.and_mask_eq_zero_iff (b := s.bits) (i := b) (w := 32) (by decide)
  cases ht : Bitmap.test s.bits b with
  | true =>
    rw [decide_eq_true_eq]
    intro h0
    rw [hmask.mp h0] at ht
    exact absurd ht (by decide)
  | false =>
    rw [decide_eq_false_iff_not, not_not]
    exact hmask.mpr ht

lemma bits_store (s : BlockCache) (k : ℕ) (w : Word) :
    (s.store (BlockCache.bitsPtr k) w).bits = Function.update s.bits k w :=
  bitsOf_putWord (c := s.mem)

/-- The block of the bitmap with the bit of `b`. -/
lemma bitsPtr_block (b : ℕ) : (BlockCache.bitsPtr (b / 32)).block = b / 32768 + 2 := by
  show 2 + b / 32 / 1024 = b / 32768 + 2
  omega

/-- A word of the bitmap with the bit of `b` changed. -/
lemma setsBit_store {w : Word} {free : Bool}
    (h : ∀ v, Bitmap.test (Function.update s.bits (b / 32) w) v =
      if v = b then free else Bitmap.test s.bits v) :
    SetsBit s (s.store (BlockCache.bitsPtr (b / 32)) w) b free := by
  refine ⟨?_, fun v hv => ?_, fun p hp => ?_, ⟨rfl, rfl, rfl⟩, ⟨rfl, rfl⟩⟩
  · rw [bits_store, h, if_pos rfl]
  · rw [bits_store, h, if_neg hv]
  · exact wordAt_putWord_of_ne (c := s.mem) hp

/-- The loop of `alloc_block_num` stops at the smallest free block. -/
lemma firstFree_eq_some : firstFree s = some b ↔ LeastFree s b := by
  unfold firstFree
  simp only [mask_test, List.find?_range'_eq_some, List.mem_range'_1]
  constructor
  · rintro ⟨hbit, ⟨hge, hlt⟩, hleast⟩
    exact ⟨hge, by omega, hbit, fun v hv hvb => by simpa using hleast v hv hvb⟩
  · intro h
    have hge := h.ge
    have hlt := h.lt
    exact ⟨h.free, ⟨hge, by omega⟩, fun v hv hvb => by simpa using h.least v hv hvb⟩

lemma firstFree_eq_none :
    firstFree s = none ↔ ∀ v, 3 ≤ v → v < s.nblocks → Bitmap.test s.bits v = false := by
  unfold firstFree
  simp only [mask_test, List.find?_range'_eq_none]
  constructor
  · intro h v hv hlt
    simpa using h v hv (by omega)
  · intro h v hv hlt
    simpa using h v hv (by omega)

namespace BitmapCached

/-- The bitmap block with the bit of a block is in the cache. -/
lemma mapped_bits (h : BitmapCached s) (hb : b < s.nblocks) : s.mapped (b / 32768 + 2) = true := by
  refine h.mapped _ ?_
  have : b / 32768 ≤ s.nblocks / 32768 := Nat.div_le_div_right hb.le
  unfold BlockCache.nbitmap
  omega

/-- `write_block` for the bitmap block with the bit of a block. -/
lemma writeBlock (h : BitmapCached s) (hb : b < s.nblocks) {t : BlockCache}
    (ht : t.mapped = s.mapped) :
    MosVolca.writeBlock t (b / 32768 + 2) = .ok (ideWrite t (b / 32768 + 2)) := by
  have hm : t.mapped (b / 32768 + 2) = true := by
    rw [ht]
    exact h.mapped_bits hb
  have hlt : ¬ b / 32768 + 2 ≥ 0x40000 := by
    have := h.small
    omega
  unfold MosVolca.writeBlock blockIsMapped diskaddr
  rw [if_neg hlt, pure_eq_ok, ok_bind, pure_eq_ok, ok_bind, hm]
  rfl

/-- **`alloc_block_num` of a disk with a free block.** -/
lemma allocBlockNum_some (h : BitmapCached s) (hb : LeastFree s b) :
    ∃ s', allocBlockNum s = .ok (.ok b, s') ∧ Allocates s s' b ∧
      s'.bits = Bitmap.clear s.bits b := by
  set t := s.store (BlockCache.bitsPtr (b / 32)) (s.bits (b / 32) &&& ~~~Bitmap.mask 32 b) with ht
  have hbits : t.bits = Bitmap.clear s.bits b := bits_store _ _ _
  have hclear : ∀ v, Bitmap.test (Bitmap.clear s.bits b) v =
      if v = b then false else Bitmap.test s.bits v := by
    intro v
    rw [Bitmap.test_clear (by decide)]
    by_cases hv : v = b <;> simp [hv]
  have hset : SetsBit s t b false := setsBit_store hclear
  refine ⟨ideWrite t (b / 32768 + 2), ?_, ⟨⟨hset.self, hset.others, hset.words, hset.pages,
    hset.pointers⟩, ?_, fun q hq => ?_, ?_⟩, hbits⟩
  · unfold allocBlockNum
    rw [firstFree_eq_some.mpr hb]
    simp only
    rw [← ht, h.writeBlock hb.lt (t := t) rfl]
    rfl
  · funext j
    show (if b / 32768 + 2 = b / 32768 + 2 then t.mem _ j else _) = t.mem _ j
    rw [if_pos rfl]
  · funext j
    exact if_neg hq
  · -- on the disk the bit is in the block that was written
    have hword : bitsOf (ideWrite t (b / 32768 + 2)).disk (b / 32) = t.bits (b / 32) := by
      have hblock : 2 + b / 32 / 1024 = b / 32768 + 2 := by omega
      unfold bitsOf BlockCache.bits
      rw [hblock]
      exact if_pos rfl
    have hself := hset.self
    unfold Bitmap.test at hself ⊢
    rw [hword, hself]

end BitmapCached

/-- `block_is_free` reads the bit of the block. -/
lemma blockIsFree_eq (hsuper : s.super = true) (hb : b < s.nblocks) :
    blockIsFree s b = Bitmap.test s.bits b := by
  unfold blockIsFree
  rw [mask_test, hsuper, decide_eq_true hb]
  rfl

/-- `free_block` sets the bit of the block. -/
lemma freeBlock_frees (h1 : 1 ≤ b) (hb : b < s.nblocks) :
    Frees s (freeBlock s b) b ∧ (freeBlock s b).bits = Bitmap.set s.bits b := by
  unfold freeBlock
  rw [if_neg (by omega)]
  refine ⟨⟨setsBit_store fun v => ?_, rfl⟩, bits_store _ _ _⟩
  show Bitmap.test (Bitmap.set s.bits b) v = _
  rw [Bitmap.test_set (by decide)]
  by_cases hv : v = b <;> simp [hv]

/-- **Allocation in the bitmap.** With the bitmap in the cache, `alloc_block_num` gives the smallest
free block from 3 on, clears its bit and writes the bitmap block with the bit to the disk, or it
fails and changes nothing if there is none. `block_is_free` reads the same bit and `free_block` sets
it, for every block but block 0, and the block that was allocated can be set free again. -/
theorem allocBlockNum_spec (s : BlockCache) (h : BitmapCached s) :
    ((∃ b s', LeastFree s b ∧ allocBlockNum s = .ok (.ok b, s') ∧ Allocates s s' b ∧
        (freeBlock s' b).bits = s.bits) ∨
      (∀ v, 3 ≤ v → v < s.nblocks → Bitmap.test s.bits v = false) ∧
        allocBlockNum s = .ok (.error (-eNoDisk), s)) ∧
    ∀ b, 1 ≤ b → b < s.nblocks →
      blockIsFree s b = Bitmap.test s.bits b ∧ Frees s (freeBlock s b) b := by
  refine ⟨?_, fun b h1 hb => ⟨blockIsFree_eq h.super hb, (freeBlock_frees h1 hb).1⟩⟩
  cases hff : firstFree s with
  | some b =>
    have hleast := firstFree_eq_some.mp hff
    obtain ⟨s', halloc, hs', hbits⟩ := h.allocBlockNum_some hleast
    refine .inl ⟨b, s', hleast, halloc, hs', ?_⟩
    have hn : s'.nblocks = s.nblocks :=
      congrArg BitVec.toNat (hs'.bit.words ⟨1, 1⟩ fun he => by
        have hblock : 1 = b / 32768 + 2 := (congrArg WordPtr.block he).trans (bitsPtr_block b)
        omega)
    have hge := hleast.ge
    rw [(freeBlock_frees (by omega) (by rw [hn]; exact hleast.lt)).2, hbits,
      Bitmap.set_clear (by decide) hleast.free]
  | none =>
    refine .inr ⟨firstFree_eq_none.mp hff, ?_⟩
    unfold allocBlockNum
    rw [hff]
    rfl

/-- A disk of 8 blocks, in the cache, with the blocks from 3 on free. The cache page of block 4 is
dirty, and block 4 on the disk is different. -/
def smallDisk : BlockCache where
  mem := fun b i => if b = 1 ∧ i = 1 then 8 else if b = 2 ∧ i = 0 then 0xE8 else
    if b = 4 then 1 else 0
  mapped := fun b => decide (b < 8)
  dirty := fun b => decide (b = 4)
  disk := fun _ _ => 0
  super := true
  bitmap := true
  grants := fun _ => true

lemma smallDisk_cached : BitmapCached smallDisk where
  super := rfl
  bitmap := rfl
  small := by decide
  mapped := by
    rw [show smallDisk.nbitmap = 1 from rfl]
    intro i hi
    obtain rfl : i = 0 := by omega
    rfl

/-- Block 3 is allocated. -/
theorem allocBlockNum_spec_smallDisk : ∃ s', allocBlockNum smallDisk = .ok (.ok 3, s') ∧
    Allocates smallDisk s' 3 ∧ (freeBlock s' 3).bits = smallDisk.bits := by
  have hfree : Bitmap.test smallDisk.bits 3 = true := by decide
  obtain ⟨⟨b, s', hb, halloc, hs'⟩ | ⟨hno, -⟩, -⟩ := allocBlockNum_spec smallDisk smallDisk_cached
  · have hb3 : b = 3 := by
      by_contra hne
      have hge := hb.ge
      rw [hb.least 3 le_rfl (by omega)] at hfree
      exact absurd hfree (by decide)
    subst hb3
    exact ⟨s', halloc, hs'⟩
  · rw [hno 3 le_rfl (by decide)] at hfree
    exact absurd hfree (by decide)

/-! ## Unmapping a block -/

/-- **What `unmap_block` should do**: afterwards the block is not in the cache, its page is on the
disk if it was dirty and the block is in use, and the other blocks are as they were. -/
structure Unmaps (s s' : BlockCache) (b : ℕ) : Prop where
  unmapped : s'.mapped b = false
  saved : s.mapped b = true → blockIsFree s b = false → s.dirty b = true → s'.disk b = s.mem b
  cache : ∀ q ≠ b, s'.mapped q = s.mapped q ∧ s'.mem q = s.mem q ∧ s'.dirty q = s.dirty q
  disk : ∀ q ≠ b, s'.disk q = s.disk q

/-- A block in the cache stays there. -/
lemma unmapBlock_mapped (hb : b < 0x40000) (hm : s.mapped b = true) : unmapBlock s b = .ok s := by
  unfold unmapBlock blockIsMapped diskaddr
  rw [if_neg (by omega), pure_eq_ok, ok_bind, pure_eq_ok, ok_bind, hm]
  rfl

/-- A block that is not in the cache is unmapped, which changes nothing. -/
lemma unmapBlock_not_mapped (hb : b < 0x40000) (hm : s.mapped b = false) :
    unmapBlock s b = .ok { s with mapped := Function.update s.mapped b false } := by
  unfold unmapBlock blockIsMapped blockIsDirty diskaddr
  rw [if_neg (by omega), pure_eq_ok, ok_bind, pure_eq_ok, ok_bind, hm]
  simp [hm]

/-- **`unmap_block` unmaps a block** exactly if the block is not in the cache to begin with. -/
theorem unmapBlock_iff (s : BlockCache) (b : ℕ) (hb : b < 0x40000) :
    ∃ s', unmapBlock s b = .ok s' ∧ (Unmaps s s' b ↔ s.mapped b = false) := by
  cases hm : s.mapped b with
  | true =>
    refine ⟨s, unmapBlock_mapped hb hm, fun h => ?_, fun h => absurd h (by decide)⟩
    exact hm.symm.trans h.unmapped
  | false =>
    refine ⟨_, unmapBlock_not_mapped hb hm, fun _ => rfl, fun _ => ?_⟩
    refine ⟨Function.update_self _ _ _, fun h => absurd (hm.symm.trans h) (by decide),
      fun q hq => ⟨Function.update_of_ne hq _ _, rfl, rfl⟩, fun _ _ => rfl⟩

/-- Block 8 of the disk of 8 blocks. -/
theorem unmapBlock_iff_smallDisk : ∃ s', unmapBlock smallDisk 8 = .ok s' ∧ Unmaps smallDisk s' 8 := by
  obtain ⟨s', h, hiff⟩ := unmapBlock_iff smallDisk 8 (by decide)
  exact ⟨s', h, hiff.mpr rfl⟩

/-- **A dirty block that stays in the cache** and is not written to the disk. -/
theorem unmapBlock_keeps : ¬ ∀ s b s', b < 0x40000 → unmapBlock s b = .ok s' → Unmaps s s' b := by
  intro h
  have hrun : unmapBlock smallDisk 4 = .ok smallDisk := unmapBlock_mapped (by decide) rfl
  exact absurd (h smallDisk 4 smallDisk (by decide) hrun).unmapped (by decide)

end MosVolca
