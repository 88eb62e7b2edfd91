import MosVolca.Fs.Recycled

/-!
# What a truncation frees

`file_truncate` should take exactly the blocks beyond the new size. It counts the blocks of a size
as `size / BY2BLK + 1`, so it keeps one block too many if the new size is a multiple of `BY2BLK`,
and the indirect block if that block is number `NDIRECT`. It also stops at the old size, although
`FSREQ_MAP` gives a file blocks beyond its size.

## Main definitions

* `MosVolca.Clears` — block pointers that are cleared and blocks that are set free.
* `MosVolca.TruncatesTail` — what a truncation should do.
* `MosVolca.NothingKept` — the condition.

## Main results

* `MosVolca.CacheInv.fileTruncate_clears` — the pointers and blocks that `file_truncate` takes.
* `MosVolca.truncatesTail_of_run` — when that is what it should take.
* `MosVolca.truncation_keeps_block` — a block that is kept.
-/

namespace MosVolca

variable {c c' c1 : Blocks} {s s' : BlockCache} {f : FilePtr} {b v k bno n : ℕ} {p : WordPtr}
  {q : Slot} {w r : Word} {gone gone' freed freed' : Slot → Prop}

/-! ## Pointers that are cleared -/

/-- The block pointers `gone` of `f` are no longer there, and the blocks of the pointers `freed` are
set free; the other pointers and blocks stay. -/
structure Clears (c c' : Blocks) (f : FilePtr) (gone freed : Slot → Prop) : Prop where
  holds : ∀ p b, Holds c' f p b ↔ Holds c f p b ∧ ¬ gone p
  free : ∀ b, IsFree c' b ↔ IsFree c b ∨ ∃ p, freed p ∧ Holds c f p b

lemma Clears.none (c : Blocks) (f : FilePtr) : Clears c c f (fun _ => False) (fun _ => False) where
  holds := fun _ _ => by simp
  free := fun _ => by simp

lemma Clears.trans (h : Clears c c1 f gone freed) (h' : Clears c1 c' f gone' freed') :
    Clears c c' f (fun p => gone p ∨ gone' p) (fun p => freed p ∨ freed' p ∧ ¬ gone p) where
  holds := fun p b => by
    rw [h'.holds, h.holds, not_or, and_assoc]
  free := fun b => by
    rw [h'.free, h.free, or_assoc]
    refine or_congr_right ?_
    constructor
    · rintro (⟨p, hp, hold⟩ | ⟨p, hp, hold⟩)
      · exact ⟨p, .inl hp, hold⟩
      · obtain ⟨hold, hno⟩ := (h.holds p b).mp hold
        exact ⟨p, .inr ⟨hp, hno⟩, hold⟩
    · rintro ⟨p, hp | ⟨hp, hno⟩, hold⟩
      · exact .inl ⟨p, hp, hold⟩
      · exact .inr ⟨p, hp, (h.holds p b).mpr ⟨hold, hno⟩⟩

/-- The same change, with the pointers described in another way. -/
lemma Clears.congr (h : Clears c c' f gone freed)
    (hgone : ∀ p b, Holds c f p b → (gone' p ↔ gone p))
    (hfreed : ∀ p b, Holds c f p b → (freed' p ↔ freed p)) : Clears c c' f gone' freed' where
  holds := fun p b => by
    rw [h.holds]
    exact and_congr_right fun hold => not_congr (hgone p b hold).symm
  free := fun b => by
    rw [h.free]
    refine or_congr_right (exists_congr fun p => ?_)
    exact and_congr_left fun hold => (hfreed p b hold).symm

/-- Freeing sets one bit. -/
lemma isFree_freeBit_iff (hv : v < nblocksOf c) :
    IsFree (freeBit c v) b ↔ IsFree c b ∨ b = v := by
  have hbits : bitsOf (freeBit c v) = Bitmap.set (bitsOf c) v := bitsOf_putWord
  unfold IsFree
  rw [hbits, show nblocksOf (freeBit c v) = nblocksOf c from nblocksOf_putBits,
    Bitmap.test_set (by decide), Bool.or_eq_true, decide_eq_true_eq]
  constructor
  · rintro ⟨hlt, ht | rfl⟩
    · exact .inl ⟨hlt, ht⟩
    · exact .inr rfl
  · rintro (⟨hlt, ht⟩ | rfl)
    · exact ⟨hlt, .inl ht⟩
    · exact ⟨hv, .inr rfl⟩

/-- No file has a pointer to the block that its own structure is in. -/
lemma Consistent.held_ne_block (hc : Consistent c) (hf : Dirent c f) (h : Holds c f q b) :
    b ≠ f.block := by
  induction hf generalizing q b with
  | root =>
    have hge := (hc.usable .root h).ge
    unfold firstData at hge
    rintro rfl
    simp only [FilePtr.root] at hge
    omega
  | @child d v j hd hv hj ih =>
    rintro rfl
    obtain ⟨ht, i, hi, hold⟩ := id hv
    have hfd : FilePtr.entry b j = d := (hc.once (.child hd hv hj) hd h hold).1
    exact ih hold (congrArg FilePtr.block hfd)

namespace CacheInv

/-- A block pointer of `f` is cleared and its block is set free. -/
lemma clearSlot_clears (hs : CacheInv s) (hf : Dirent s.content f)
    (hfield : HasField s.content f q.field)
    (hm : s.mapped (placeOf s.content f q.field).block = true)
    (hne : wordAt s.content (placeOf s.content f q.field) ≠ 0)
    (hc : Consistent (putWord s.content (placeOf s.content f q.field) 0))
    (hholds : ∀ y b, Holds (putWord s.content (placeOf s.content f q.field) 0) f y b ↔
      Holds s.content f y b ∧ ¬ gone y) :
    Clears s.content
      ((MosVolca.freeBlock s (wordAt s.content (placeOf s.content f q.field)).toNat).store
        (placeOf s.content f q.field) 0).content f gone (· = q) := by
  have hold : Holds s.content f q (wordAt s.content (placeOf s.content f q.field)).toNat :=
    ⟨hfield, hne, rfl⟩
  have hu := hs.consistent.usable hf hold
  have hmap := sameMap_putWord (w := 0) (hs.consistent.outside_placeOf hf hfield)
  have hself : Dirent (putWord s.content (placeOf s.content f q.field) 0) f :=
    Dirent.keep_self (fun d b hd hdf hb =>
      (hs.consistent.agrees_of_field hd hf hfield (.inl hdf)).dirBlock_iff.mpr hb) hf
  rw [hs.clearSlot_content hf hfield hm hne hc]
  refine ⟨fun y b => ?_, fun b => ?_⟩
  · rw [← hholds y b]
    exact (hc.agrees_of_map hself fun p ho => hs.clearSlot_word hf hfield hne
      ((outside_iff hmap.nblocks).mp ho)).holds_iff
  · rw [isFree_freeBit_iff (by rw [hmap.nblocks]; exact hu.lt), hmap.isFree_iff]
    refine or_congr_right ⟨?_, ?_⟩
    · rintro rfl
      exact ⟨q, rfl, hold⟩
    · rintro ⟨y, rfl, hy⟩
      exact hy.2.2.symm

/-- **`file_clear_block`** takes the block with that number. -/
lemma fileClearBlock_clears (hs : CacheInv s) (hf : Dirent s.content f)
    (hm : s.mapped f.block = true) (h : MosVolca.fileClearBlock s f bno = .ok (r, s')) :
    Clears s.content s'.content f (· = .data bno) (· = .data bno) := by
  -- where there is no such block nothing happens
  have hnone : (∀ b, ¬ Holds s.content f (.data bno) b) → s'.content = s.content →
      Clears s.content s'.content f (· = .data bno) (· = .data bno) := by
    intro hno hcon
    rw [hcon]
    refine (Clears.none _ f).congr (fun p b hold => ?_) fun p b hold => ?_
    all_goals
      refine iff_of_false ?_ id
      rintro rfl
      exact hno b hold
  unfold MosVolca.fileClearBlock at h
  obtain ⟨⟨x, s1⟩, hwalk, h1⟩ := bind_eq_ok.mp h
  have hload := fileBlockWalk_loads hwalk
  cases x with
  | error e =>
    cases h1
    refine hnone (fun b hold => ?_) hload.content
    have hlt := hold.lt_nindirect
    rcases fileBlockWalk_cases hwalk with ⟨-, hx, -⟩ | ⟨hge, -, -⟩ | ⟨hd, -, ⟨e, hneed, -⟩ |
      ⟨isnew, s2, -, -, hx⟩⟩
    · cases hx
    · omega
    · -- there is no indirect block
      have hfield := hold.hasField
      rw [show (Slot.data bno).field = .far bno from if_neg (Nat.not_lt.mpr hd)] at hfield
      rcases needIndirect_cases hneed with ⟨-, hx, -⟩ | ⟨h0, -⟩ | ⟨-, ha, -⟩
      · cases hx
      · exact hfield.2.2 ((load_eq (p := f.indirect) hm).symm.trans h0)
      · cases ha
    · cases hx
  | ok ptr =>
    obtain ⟨hs1, -, hptr⟩ := hs.fileBlockWalk hf hm hwalk (fun ha => absurd ha Bool.false_ne_true)
    obtain ⟨hfield, rfl, hmap⟩ := hptr ptr rfl
    have hf1 : Dirent s1.content f := hload.content ▸ hf
    simp only at h1
    split_ifs at h1 with hne
    · obtain ⟨-, rfl⟩ := pure_pair_inj h1
      rw [load_eq hmap] at hne ⊢
      have hc := hs1.consistent
      rw [← hload.content]
      refine hs1.clearSlot_clears hf1 hfield hmap hne (hc.clearData hf1 hfield) fun y b => ?_
      rw [hc.holds_putData hf1 hf1 hfield]
      split_ifs with hy
      · exact iff_of_false (fun h0 => h0.1 rfl) fun hold => hold.2 hy.2
      · exact ⟨fun hold => ⟨hold, fun he => hy ⟨rfl, he⟩⟩, And.left⟩
    · obtain ⟨-, rfl⟩ := pure_pair_inj h1
      refine hnone (fun b hold => ?_) hload.content
      rw [← hload.content] at hold
      rw [load_eq hmap] at hne
      exact hne hold.2.1

/-- The loop of `file_truncate`. -/
lemma truncateLoop_clears {l : List ℕ} (hs : CacheInv s) (hf : Dirent s.content f)
    (hm : s.mapped f.block = true) (h : l.foldlM (fun s bno => do
      let (_, s) ← MosVolca.fileClearBlock s f bno
      pure s) s = .ok s') :
    Clears s.content s'.content f (fun p => ∃ i ∈ l, p = .data i) (fun p => ∃ i ∈ l, p = .data i) := by
  induction l generalizing s with
  | nil =>
    cases h
    exact (Clears.none _ f).congr (fun _ _ _ => by simp) fun _ _ _ => by simp
  | cons bno l ih =>
    rw [List.foldlM_cons] at h
    obtain ⟨s1, hstep, h1⟩ := bind_eq_ok.mp h
    obtain ⟨⟨r, s2⟩, hclear, h2⟩ := bind_eq_ok.mp hstep
    cases h2
    have hsh := hs.fileClearBlock hf hm hclear
    refine ((hs.fileClearBlock_clears hf hm hclear).trans
      (ih hsh.inv hsh.self (hsh.mapped _ hm) h1)).congr (fun p b _ => ?_) fun p b _ => ?_
    · simp only [List.mem_cons, exists_eq_or_imp]
    · simp only [List.mem_cons, exists_eq_or_imp]
      tauto

/-- The indirect block is set free: with it go the block pointers in it. -/
lemma clearIndirect_clears (hs : CacheInv s) (hf : Dirent s.content f)
    (hm : s.mapped f.block = true) (hne : s.load f.indirect ≠ 0) :
    Clears s.content ((MosVolca.freeBlock s (s.load f.indirect).toNat).store f.indirect 0).content f
      (fun p => p = .indirect ∨ ∃ i, ndirect ≤ i ∧ p = .data i) (· = .indirect) := by
  rw [load_eq (p := f.indirect) hm] at hne ⊢
  have hc := hs.consistent
  have h0 : wordAt (putWord s.content f.indirect 0) f.indirect = 0 := wordAt_putWord_self _ _ _
  refine hs.clearSlot_clears (q := .indirect) hf Consistent.hasField_indirect hm hne
    (hc.clearIndirect hf) fun y b => ?_
  change Holds (putWord s.content f.indirect 0) f y b ↔ _
  cases y with
  | indirect => exact iff_of_false (fun hold => hold.2.1 h0) fun hold => hold.2 (.inl rfl)
  | data i =>
    by_cases hi : i < ndirect
    · -- a pointer in the structure
      have hi' : i < 10 := hi
      have hfield : (Slot.data i).field = .head (34 + i) := if_pos hi
      have hword : wordAt (putWord s.content f.indirect 0) ⟨f.block, f.word + (34 + i)⟩ =
          wordAt s.content ⟨f.block, f.word + (34 + i)⟩ :=
        hc.head_putIndirect hf hf (by omega) (by omega)
      unfold Holds
      rw [hfield]
      show HasField _ f _ ∧ wordAt (putWord s.content f.indirect 0) ⟨f.block, f.word + (34 + i)⟩ ≠ 0 ∧
        (wordAt (putWord s.content f.indirect 0) ⟨f.block, f.word + (34 + i)⟩).toNat = b ↔ _
      rw [hword]
      refine ⟨fun hold => ⟨hold, ?_⟩, And.left⟩
      rintro (he | ⟨j, hj, he⟩)
      · cases he
      · cases he
        omega
    · have hfield : (Slot.data i).field = .far i := if_neg hi
      refine iff_of_false (fun hold => ?_) fun hold => hold.2 (.inr ⟨i, Nat.le_of_not_lt hi, rfl⟩)
      have hhas := hold.hasField
      rw [hfield] at hhas
      exact hhas.2.2 h0

/-- **The pointers and blocks that `file_truncate` takes**: with `n` blocks for the new size, the
blocks from `n` to the old size, and the indirect block if `n` is not beyond `NDIRECT`. -/
theorem fileTruncate_clears (hs : CacheInv s) (hf : Dirent s.content f)
    (hm : s.mapped f.block = true) (h : MosVolca.fileTruncate s f w = .ok s')
    (hn : n = if w = 0 then 0 else w.toNat / 4096 + 1) :
    Clears s.content s'.content f
      (fun p => (∃ i, n ≤ i ∧ i ≤ sizeBlocksOf s.content f ∧ p = .data i) ∨
        n ≤ ndirect ∧ (p = .indirect ∨ ∃ i, ndirect ≤ i ∧ p = .data i))
      (fun p => (∃ i, n ≤ i ∧ i ≤ sizeBlocksOf s.content f ∧ p = .data i) ∨
        n ≤ ndirect ∧ p = .indirect) := by
  unfold MosVolca.fileTruncate at h
  rw [← hn] at h
  obtain ⟨s1, hloop, h1⟩ := bind_eq_ok.mp h
  obtain ⟨hs1, hf1, hm1⟩ : CacheInv s1 ∧ Dirent s1.content f ∧ s1.mapped f.block = true := by
    refine foldlM_invariant
      (P := fun t => CacheInv t ∧ Dirent t.content f ∧ t.mapped f.block = true)
      (fun bno _ t t' ⟨ht, hft, hmt⟩ hstep => ?_) ⟨hs, hf, hm⟩ hloop
    obtain ⟨⟨r, t1⟩, hclear, hr⟩ := bind_eq_ok.mp hstep
    cases hr
    have hsh := ht.fileClearBlock hft hmt hclear
    exact ⟨hsh.inv, hsh.self, hsh.mapped _ hmt⟩
  have hloop := hs.truncateLoop_clears hf hm hloop
  have hmem : ∀ p : Slot, (∃ i ∈ List.range' n (s.sizeBlocks f + 1 - n), p = .data i) ↔
      ∃ i, n ≤ i ∧ i ≤ sizeBlocksOf s.content f ∧ p = .data i := by
    intro p
    rw [sizeBlocks_eq hm]
    refine exists_congr fun i => ?_
    rw [List.mem_range'_1, ← and_assoc]
    exact and_congr_left fun _ => by omega
  simp only [hmem] at hloop
  -- the size is written last
  have hsize : ∀ t : BlockCache, CacheInv t → Dirent t.content f → t.mapped f.block = true →
      Clears t.content (t.store f.size w).content f (fun _ => False) (fun _ => False) := by
    intro t ht hft hmt
    have hfield : HasField t.content f (.head 32) := (by decide : 32 < 64)
    have hmap := sameMap_putWord (w := w) (ht.consistent.outside_placeOf hft hfield)
    rw [content_store (p := f.size) hmt]
    refine ⟨fun p b => ?_, fun b => ?_⟩
    · rw [not_false_iff, and_true]
      exact ht.consistent.holds_putHead (k := 32) hft hft (by decide)
    · simp only [false_and, exists_false, or_false]
      exact hmap.isFree_iff
  rw [pure_eq_ok, Except.ok.injEq] at h1
  rw [← h1]
  by_cases hcase : n ≤ ndirect ∧ s1.load f.indirect ≠ 0
  · rw [if_pos hcase]
    have hsh := hs1.clearIndirect hf1 hm1 hcase.2
    refine ((hloop.trans (hs1.clearIndirect_clears hf1 hm1 hcase.2)).trans
      (hsize _ hsh.inv hsh.self (hsh.mapped _ hm1))).congr (fun p b _ => ?_) fun p b _ => ?_
    · simp only [hcase.1, true_and, or_false]
    · simp only [hcase.1, true_and, false_and, or_false]
      refine or_congr_right ⟨fun he => ⟨he, ?_⟩, And.left⟩
      rintro ⟨i, -, -, hi⟩
      exact Slot.noConfusion (he.symm.trans hi)
  · rw [if_neg hcase]
    refine (hloop.trans (hsize _ hs1 hf1 hm1)).congr (fun p b hold => ?_) fun p b hold => ?_
    all_goals
      simp only [false_and, or_false]
      refine or_iff_left_of_imp ?_
    · -- there is no indirect block to be set free
      rintro ⟨hle, hp⟩
      by_contra hno
      have hold1 := (hloop.holds p b).mpr ⟨hold, hno⟩
      have hne : wordAt s1.content f.indirect ≠ 0 := by
        rcases hp with rfl | ⟨i, hi, rfl⟩
        · exact hold1.2.1
        · have hhas := hold1.hasField
          rw [show (Slot.data i).field = .far i from if_neg (Nat.not_lt.mpr hi)] at hhas
          exact hhas.2.2
      exact hcase ⟨hle, by rwa [load_eq (p := f.indirect) hm1]⟩
    · rintro ⟨hle, rfl⟩
      by_contra hno
      have hold1 := (hloop.holds .indirect b).mpr ⟨hold, fun ⟨i, _, _, hi⟩ => Slot.noConfusion hi⟩
      exact hcase ⟨hle, by rw [load_eq (p := f.indirect) hm1]; exact hold1.2.1⟩

end CacheInv

/-! ## What a truncation should do -/

/-- The number of blocks of a size. -/
def blocksNeeded (w : Word) : ℕ := (w.toNat + 4095) / 4096

/-- **The truncation frees exactly the tail**: the block pointers from the new size on are cleared
and their blocks are free, the ones below and their blocks stay, the indirect block is set free
exactly if no pointer in it is needed, and the size is the new size. -/
structure TruncatesTail (c c' : Blocks) (f : FilePtr) (w : Word) : Prop where
  cleared : ∀ i b, blocksNeeded w ≤ i → ¬ Holds c' f (.data i) b
  freed : ∀ i b, blocksNeeded w ≤ i → Holds c f (.data i) b → IsFree c' b
  pointers : ∀ i b, i < blocksNeeded w → (Holds c' f (.data i) b ↔ Holds c f (.data i) b)
  blocks : ∀ i b, i < blocksNeeded w → Holds c f (.data i) b → ¬ IsFree c' b ∧ c' b = c b
  indirect : ∀ b, Holds c f .indirect b → (IsFree c' b ↔ blocksNeeded w ≤ ndirect)
  size : wordAt c' f.size = w
  empty : w = 0 → ∀ p b, Holds c f p b → IsFree c' b

/-- **Nothing is kept by mistake**: the file has no block beyond its old size, and if the new size is
a multiple of `BY2BLK` other than 0 then the block with the number `newsize / BY2BLK` is missing,
and so is the indirect block if that number is `NDIRECT`. -/
structure NothingKept (c : Blocks) (f : FilePtr) (w : Word) : Prop where
  beyond : ∀ i b, sizeBlocksOf c f < i → ¬ Holds c f (.data i) b
  next : w ≠ 0 → 4096 ∣ w.toNat → ∀ b, ¬ Holds c f (.data (w.toNat / 4096)) b
  indirect : w.toNat = 4096 * ndirect → ∀ b, ¬ Holds c f .indirect b

/-- The block of a pointer of `f` is free afterwards exactly if the pointer is one of `freed`. -/
lemma Clears.isFree_iff (h : Clears c c' f gone freed) (hc : Consistent c) (hf : Dirent c f)
    (hold : Holds c f q b) : IsFree c' b ↔ freed q := by
  rw [h.free]
  constructor
  · rintro (hfree | ⟨p, hp, hold'⟩)
    · exact absurd hfree (hc.usable hf hold).used
    · exact (hc.once hf hf hold hold').2 ▸ hp
  · exact fun hq => .inr ⟨q, hq, hold⟩

/-- The loop of `file_truncate` begins at the first block that is not needed, or at the next one. -/
lemma blocksNeeded_cases (hn : n = if w = 0 then 0 else w.toNat / 4096 + 1) :
    n = blocksNeeded w ∨
      n = blocksNeeded w + 1 ∧ w ≠ 0 ∧ 4096 ∣ w.toNat ∧ blocksNeeded w = w.toNat / 4096 := by
  unfold blocksNeeded
  by_cases h0 : w = 0
  · rw [if_pos h0] at hn
    subst h0
    exact .inl hn
  · rw [if_neg h0] at hn
    have hpos : w.toNat ≠ 0 := fun h => h0 (BitVec.eq_of_toNat_eq h)
    by_cases hd : 4096 ∣ w.toNat
    · exact .inr ⟨by omega, h0, hd, by omega⟩
    · exact .inl (by omega)

/-- **When `file_truncate` frees exactly the tail.** -/
theorem CacheInv.fileTruncate_tail (hs : CacheInv s) (hf : Dirent s.content f)
    (hm : s.mapped f.block = true) (hlt : w.toNat < (wordAt s.content f.size).toNat)
    (h : MosVolca.fileTruncate s f w = .ok s') :
    TruncatesTail s.content s'.content f w ↔ NothingKept s.content f w := by
  obtain ⟨n, hn⟩ : ∃ n, n = if w = 0 then 0 else w.toNat / 4096 + 1 := ⟨_, rfl⟩
  have hclears := hs.fileTruncate_clears hf hm h hn
  have hfree := fun {q b} => hclears.isFree_iff (q := q) (b := b) hs.consistent hf
  have hcases := blocksNeeded_cases hn
  have hsize : n ≤ sizeBlocksOf s.content f + 1 := by
    have := Nat.div_le_div_right (c := 4096) hlt.le
    unfold sizeBlocksOf
    split_ifs at hn <;> omega
  constructor
  · intro ht
    refine ⟨fun i b hi hold => ?_, fun h0 hd b hold => ?_, fun hten b hold => ?_⟩
    · -- the loop does not come to a block beyond the old size
      rcases (hfree hold).mp (ht.freed i b (by omega) hold) with ⟨j, -, hj, he⟩ | ⟨-, he⟩
      · cases he
        omega
      · cases he
    · have hneed : blocksNeeded w = w.toNat / 4096 := by
        unfold blocksNeeded
        omega
      have hne : w.toNat ≠ 0 := fun hz => h0 (BitVec.eq_of_toNat_eq hz)
      rw [if_neg h0] at hn
      rcases (hfree hold).mp (ht.freed _ b hneed.le hold) with ⟨j, hj, -, he⟩ | ⟨-, he⟩
      · cases he
        omega
      · cases he
    · have hten : w.toNat = 4096 * 10 := hten
      have hneed : blocksNeeded w ≤ ndirect := by
        unfold blocksNeeded
        rw [hten]
        decide
      have h0 : w ≠ 0 := by
        rintro rfl
        exact absurd hten (by decide)
      rw [if_neg h0] at hn
      rcases (hfree hold).mp ((ht.indirect b hold).mpr hneed) with ⟨j, -, -, he⟩ | ⟨hle, -⟩
      · cases he
      · have hle : n ≤ 10 := hle
        omega
  · intro hk
    -- a block that is not needed is one that the loop comes to
    have htail : ∀ i b, blocksNeeded w ≤ i → Holds s.content f (.data i) b →
        n ≤ i ∧ i ≤ sizeBlocksOf s.content f := by
      intro i b hi hold
      have hle : i ≤ sizeBlocksOf s.content f := by
        by_contra hlt
        exact hk.beyond i b (by omega) hold
      refine ⟨?_, hle⟩
      rcases hcases with he | ⟨he, h0, hd, hneed⟩
      · omega
      · by_contra hlt
        obtain rfl : i = w.toNat / 4096 := by omega
        exact hk.next h0 hd b hold
    have hgone : ∀ i, i < blocksNeeded w → ¬ ((∃ j, n ≤ j ∧ j ≤ sizeBlocksOf s.content f ∧
        Slot.data i = .data j) ∨ n ≤ ndirect ∧ (Slot.data i = .indirect ∨
          ∃ j, ndirect ≤ j ∧ Slot.data i = .data j)) := by
      rintro i hi (⟨j, hj, -, he⟩ | ⟨hle, he | ⟨j, hj, he⟩⟩)
      · cases he
        omega
      · cases he
      · cases he
        omega
    refine ⟨fun i b hi hold => ?_, fun i b hi hold => ?_, fun i b hi => ?_, fun i b hi hold => ?_,
      fun b hold => ?_, ?_, fun h0 p b hold => ?_⟩
    · obtain ⟨hold, hno⟩ := (hclears.holds _ b).mp hold
      obtain ⟨h1, h2⟩ := htail i b hi hold
      exact hno (.inl ⟨i, h1, h2, rfl⟩)
    · obtain ⟨h1, h2⟩ := htail i b hi hold
      exact (hfree hold).mpr (.inl ⟨i, h1, h2, rfl⟩)
    · rw [hclears.holds]
      exact and_iff_left (hgone i hi)
    · refine ⟨fun hfr => hgone i hi (((hfree hold).mp hfr).imp_right fun hx => ⟨hx.1, .inl hx.2⟩), ?_⟩
      -- no word of `f` is in the block
      funext k
      refine (hs.fileTruncate_trims hf hm h).word ⟨b, k⟩ (.inr (hs.consistent.usable hf hold).ge) ?_
      rintro ⟨x, -, hx, he⟩
      cases x with
      | head l => exact hs.consistent.held_ne_block hf hold (congrArg WordPtr.block he)
      | far l =>
        have hind := holds_indirect hx.2.2
        have hb : b = (wordAt s.content f.indirect).toNat := congrArg WordPtr.block he
        rw [← hb] at hind
        exact Slot.noConfusion (hs.consistent.once hf hf hold hind).2
    · rw [hfree hold]
      constructor
      · rintro (⟨j, -, -, he⟩ | ⟨hle, -⟩)
        · cases he
        · omega
      · intro hle
        refine .inr ⟨?_, rfl⟩
        rcases hcases with he | ⟨he, h0, hd, hneed⟩
        · omega
        · by_contra hlt
          have hten : blocksNeeded w = ndirect := by omega
          exact hk.indirect (by omega) b hold
    · exact (hs.fileTruncate_head hf hm h (k := 32) (by decide) hn).trans (if_pos rfl)
    · have hzero : n = 0 := hn.trans (if_pos h0)
      rw [hfree hold]
      cases p with
      | data i => exact .inl ⟨i, (htail i b (by rw [h0]; exact Nat.zero_le i) hold).imp id fun hx =>
          ⟨hx, rfl⟩⟩
      | indirect => exact .inr ⟨by omega, rfl⟩

/-- **When a truncation frees exactly the tail**, of a file of the server after any run of harmless
events from a consistent image. -/
theorem truncatesTail_of_run {disk : Blocks} {grants : ℕ → Bool} {cache : BlockCache}
    {t : FileServer} {events : List FsEvent} {depth : ℕ} (hd : Consistent disk)
    (hinit : fsInit (BlockCache.off disk grants) = .ok cache)
    (hrun : fsRun depth (serveInit cache) events = .ok t)
    (hharm : HarmlessRun depth (serveInit cache) events) (hf : InCache t.cache f)
    (hlt : w.toNat < (wordAt t.cache.content f.size).toNat)
    (h : fileTruncate t.cache f w = .ok s') :
    TruncatesTail t.cache.content s'.content f w ↔ NothingKept t.cache.content f w := by
  have hs : ServerInv (serveInit cache) := ⟨CacheInv.fsInit hd hinit, fun i f hf => absurd hf (by
    simp [serveInit])⟩
  exact (hs.run hrun hharm).cache.fileTruncate_tail hf.dirent hf.mapped hlt h

/-! ## Runs -/

/-- The words that make the structures in block 3 entries. -/
def rootIsThree (t : FileServer) : Bool :=
  let c := t.cache.content
  wordAt c FilePtr.root.type == ftypeDir && wordAt c FilePtr.root.size == 4096 &&
    wordAt c (FilePtr.root.direct 0) == 3 && t.cache.mapped 3

/-- The structures in the block of the root are in the cache. -/
lemma inCache_three {t : FileServer} {j : ℕ} (hj : j < file2blk) (h : rootIsThree t = true) :
    InCache t.cache (FilePtr.entry 3 j) := by
  simp only [rootIsThree, Bool.and_eq_true, beq_iff_eq] at h
  obtain ⟨⟨⟨htype, hsize⟩, hroot⟩, hmap⟩ := h
  refine ⟨.child .root ⟨htype, 0, ?_, ?_⟩ hj, hmap⟩
  · rw [sizeBlocksOf, hsize]
    decide
  · have hword : wordAt t.cache.content (placeOf t.cache.content FilePtr.root (Slot.data 0).field) =
        3 := hroot
    refine ⟨(by decide : 34 + 0 < 64), ?_, ?_⟩
    · rw [hword]
      decide
    · rw [hword]
      rfl

/-- The client `7` opens `a`, whose structure is the first one in block 3, and after `events` the
file is truncated to `w` bytes. -/
def openTruncate (events : List FsEvent) (w : Word) :
    Kernel (BlockCache × FileServer × BlockCache) := do
  let cache ← fsInit (BlockCache.off twoFiles fun _ => true)
  let t ← fsRun 1 (serveInit cache) (.request 7 (.openFile [0x2F, 0x61] 0) :: events)
  let c ← fileTruncate t.cache (FilePtr.entry 3 0) w
  pure (cache, t, c)

/-- After an entry of the table is allocated, the root has one block, which is block 3. -/
def rootInThree : Kernel BlockCache → Bool
  | .ok c => (openAlloc (serveInit c)).2.2.cache.sizeBlocks FilePtr.root == 1 &&
      (openAlloc (serveInit c)).2.2.cache.load (FilePtr.root.direct 0) == 3
  | .error _ => false

/-- Opening `a` in the image of two files runs into no old data. -/
lemma openRun_harmless {cache : BlockCache}
    (h : fsInit (BlockCache.off twoFiles fun _ => true) = .ok cache) :
    HarmlessRun 1 (serveInit cache) [.request 7 (.openFile [0x2F, 0x61] 0)] := by
  have heval : rootInThree (fsInit (BlockCache.off twoFiles fun _ => true)) = true := by rfl
  rw [h, rootInThree] at heval
  simp only [Bool.and_eq_true, beq_iff_eq] at heval
  refine ⟨⟨pathClean_of_root heval.1 heval.2, fun _ _ _ _ _ hmode => ?_⟩, fun _ _ => trivial⟩
  rcases hmode with hmode | hmode <;> exact absurd rfl hmode

/-- What is looked at before the truncation of `a`: it has one block. -/
def hasOneBlock (t : FileServer) : Bool :=
  let f := FilePtr.entry 3 0
  rootIsThree t && wordAt t.cache.content f.size == 4096 && wordAt t.cache.content f.indirect == 0 &&
    (List.range 10).all fun i => i == 0 || wordAt t.cache.content (f.direct i) == 0

/-- The file `a` is truncated to nothing. -/
theorem truncatesTail_of_run_open : ∃ cache t s', openTruncate [] 0 = .ok (cache, t, s') ∧
    TruncatesTail t.cache.content s'.content (FilePtr.entry 3 0) 0 := by
  have heval : (match openTruncate [] 0 with
      | .ok (_, t, _) => hasOneBlock t
      | .error _ => false) = true := by rfl
  cases hrun : openTruncate [] 0 with
  | error e =>
    rw [hrun] at heval
    exact absurd heval Bool.false_ne_true
  | ok x =>
    obtain ⟨cache, t, s'⟩ := x
    rw [hrun] at heval
    simp only [hasOneBlock, Bool.and_eq_true, beq_iff_eq, List.all_eq_true, List.mem_range,
      Bool.or_eq_true] at heval
    obtain ⟨⟨⟨hroot, hsize⟩, hind⟩, hdirect⟩ := heval
    obtain ⟨cache', hinit, h1⟩ := bind_eq_ok.mp hrun
    obtain ⟨t', hev, h2⟩ := bind_eq_ok.mp h1
    obtain ⟨c, htrunc, h3⟩ := bind_eq_ok.mp h2
    cases h3
    refine ⟨cache, t, s', rfl, (truncatesTail_of_run twoFiles_consistent hinit hev
      (openRun_harmless hinit) (inCache_three (by decide) hroot) (by rw [hsize]; decide) htrunc).mpr
      ⟨fun i b hi hold => ?_, fun h0 => absurd rfl h0, fun h0 => absurd h0 (by decide)⟩⟩
    rw [sizeBlocksOf, hsize] at hi
    have hi : 1 < i := hi
    obtain ⟨hhas, hne, -⟩ := hold
    by_cases hd : i < ndirect
    · have hfield : (Slot.data i).field = .head (34 + i) := if_pos hd
      rw [hfield] at hne
      exact hne ((hdirect i hd).resolve_left (by omega))
    · have hfield : (Slot.data i).field = .far i := if_neg hd
      rw [hfield] at hhas
      exact hhas.2.2 hind

/-- The client makes `a` two blocks long and maps the second block, as `ftruncate` does. -/
def growEvents : List FsEvent :=
  [.share 0 2, .request 7 (.setSize 1024 8192), .request 7 (.map 1024 4096)]

/-- **A block that is kept**: `a` is truncated from two blocks to one, and still has the second. -/
theorem truncation_keeps_block : ¬ ∀ disk grants cache depth events t f w s', Consistent disk →
    fsInit (BlockCache.off disk grants) = .ok cache →
    fsRun depth (serveInit cache) events = .ok t → InCache t.cache f →
    w.toNat < (wordAt t.cache.content f.size).toNat → fileTruncate t.cache f w = .ok s' →
    TruncatesTail t.cache.content s'.content f w := by
  intro h
  have heval : (match openTruncate growEvents 4096 with
      | .ok (_, t, s') => rootIsThree t && wordAt t.cache.content (FilePtr.entry 3 0).size == 8192 &&
        wordAt s'.content ((FilePtr.entry 3 0).direct 1) != 0
      | .error _ => false) = true := by rfl
  cases hrun : openTruncate growEvents 4096 with
  | error e =>
    rw [hrun] at heval
    exact absurd heval Bool.false_ne_true
  | ok x =>
    obtain ⟨cache, t, s'⟩ := x
    rw [hrun] at heval
    simp only [Bool.and_eq_true, beq_iff_eq, bne_iff_ne] at heval
    obtain ⟨⟨hroot, hsize⟩, hsecond⟩ := heval
    obtain ⟨cache', hinit, h1⟩ := bind_eq_ok.mp hrun
    obtain ⟨t', hev, h2⟩ := bind_eq_ok.mp h1
    obtain ⟨c, htrunc, h3⟩ := bind_eq_ok.mp h2
    cases h3
    have ht := h twoFiles _ _ 1 _ _ (FilePtr.entry 3 0) 4096 s' twoFiles_consistent hinit hev
      (inCache_three (by decide) hroot) (by rw [hsize]; decide) htrunc
    exact ht.cleared 1 _ (by decide) ⟨(by decide : 34 + 1 < 64), hsecond, rfl⟩

end MosVolca
