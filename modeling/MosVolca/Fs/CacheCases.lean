import MosVolca.Fs.OwnerUpdates

/-!
# What the block cache contains

The contents of a block are its cache page if there is one, and its words on the disk otherwise.
Reading and writing back blocks does not change them. This file says what the functions on blocks
and on the bitmap do to the contents, and what the server relies on between two requests.

## Main definitions

* `MosVolca.BlockCache.content` — the contents of the blocks.
* `MosVolca.Loads` — a change of the cache that keeps the contents.
* `MosVolca.CacheInv` — the bitmap is in the cache, and the contents are consistent.
* `MosVolca.AllocClean` — the page of the block that is allocated next holds no old data.

## Main results

* `MosVolca.readBlock_loads`, `MosVolca.touchBlock_content` — reading a block, and a page of zeros.
* `MosVolca.CacheInv.allocBlock`, `MosVolca.CacheInv.freeBlock` — the bitmap.
-/

namespace MosVolca

variable {s s' s1 : BlockCache} {f g : FilePtr} {b v k : ℕ} {p : WordPtr} {w r : Word}

/-- The contents of the blocks. -/
def BlockCache.content (s : BlockCache) : Blocks := fun b => if s.mapped b then s.mem b else s.disk b

/-- The contents of a mapped block are what the cache has. -/
lemma content_of_mapped (h : s.mapped b = true) : s.content b = s.mem b := by
  simp [BlockCache.content, h]

lemma content_of_not_mapped (h : s.mapped b = false) : s.content b = s.disk b := by
  simp [BlockCache.content, h]

/-- A load from a mapped block is from the contents. -/
lemma load_eq (h : s.mapped p.block = true) : s.load p = wordAt s.content p := by
  rw [BlockCache.load, wordAt, content_of_mapped h]

/-- A store to a mapped block changes one word of the contents. -/
lemma content_store (h : s.mapped p.block = true) :
    (s.store p w).content = putWord s.content p w := by
  funext b i
  unfold BlockCache.content BlockCache.store putWord TwoLevel.write
  by_cases hb : b = p.block
  · subst hb
    simp [h]
  · by_cases hm : s.mapped b = true <;> simp [hb, hm]

lemma load_store_self (s : BlockCache) (p : WordPtr) (w : Word) : (s.store p w).load p = w :=
  TwoLevel.write_same _ _ _ _

/-! ## Changes that keep the contents -/

/-- The contents stay, and what is in the cache stays there. -/
structure Loads (s s' : BlockCache) : Prop where
  content : s'.content = s.content
  mapped : ∀ b, s.mapped b = true → s'.mapped b = true
  super : s'.super = s.super
  bitmap : s'.bitmap = s.bitmap

lemma Loads.refl (s : BlockCache) : Loads s s := ⟨rfl, fun _ h => h, rfl, rfl⟩

lemma Loads.trans (h : Loads s s1) (h' : Loads s1 s') : Loads s s' where
  content := h'.content.trans h.content
  mapped := fun b hb => h'.mapped b (h.mapped b hb)
  super := h'.super.trans h.super
  bitmap := h'.bitmap.trans h.bitmap

/-- The two answers of the kernel to an allocation. -/
lemma allocPage_cases (s : BlockCache) (b : ℕ) :
    (allocPage s b).1 = 0 ∧ (allocPage s b).2.mem = TwoLevel.fill s.mem b 0 ∧
      (allocPage s b).2.mapped = Function.update s.mapped b true ∨
    (allocPage s b).1 = -eNoMem ∧ (allocPage s b).2.mem = s.mem ∧
      (allocPage s b).2.mapped = s.mapped := by
  unfold allocPage
  by_cases h : s.grants 0 = true
  · rw [if_pos h]
    exact .inl ⟨rfl, rfl, rfl⟩
  · rw [if_neg h]
    exact .inr ⟨rfl, rfl, rfl⟩

lemma allocPage_rest (s : BlockCache) (b : ℕ) :
    (allocPage s b).2.disk = s.disk ∧ (allocPage s b).2.super = s.super ∧
      (allocPage s b).2.bitmap = s.bitmap := by
  unfold allocPage
  by_cases h : s.grants 0 = true
  · rw [if_pos h]
    exact ⟨rfl, rfl, rfl⟩
  · rw [if_neg h]
    exact ⟨rfl, rfl, rfl⟩

/-- A page of zeros takes the place of the block. -/
structure Fills (s s' : BlockCache) (b : ℕ) : Prop where
  content : s'.content = TwoLevel.fill s.content b 0
  mapped : ∀ x, s.mapped x = true → s'.mapped x = true
  self : s'.mapped b = true
  super : s'.super = s.super
  bitmap : s'.bitmap = s.bitmap

/-- The block gets a page of zeros, or the kernel has none. -/
lemma allocPage_spec (s : BlockCache) (b : ℕ) :
    (allocPage s b).1 = 0 ∧ Fills s (allocPage s b).2 b ∨
      (allocPage s b).1 = -eNoMem ∧ (allocPage s b).2.mapped = s.mapped ∧
        Loads s (allocPage s b).2 := by
  obtain ⟨hdisk, hsuper, hbitmap⟩ := allocPage_rest s b
  rcases allocPage_cases s b with ⟨hr, hmem, hmap⟩ | ⟨hr, hmem, hmap⟩
  · refine .inl ⟨hr, ?_, fun x hx => ?_, ?_, hsuper, hbitmap⟩
    · funext x i
      unfold BlockCache.content TwoLevel.fill
      rw [hdisk, hmem, hmap]
      by_cases hx : x = b
      · subst hx
        simp
      · by_cases hm : s.mapped x = true <;> simp [hx, hm, TwoLevel.fill_of_ne hx]
    · rw [hmap]
      by_cases hxb : x = b
      · rw [hxb, Function.update_self]
      · rwa [Function.update_of_ne hxb]
    · rw [hmap, Function.update_self]
  · exact .inr ⟨hr, hmap, by unfold BlockCache.content; rw [hdisk, hmem, hmap],
      fun x hx => by rwa [hmap], hsuper, hbitmap⟩

lemma eNoMem_ne_zero : -eNoMem ≠ (0 : Word) := by decide

lemma diskaddr_eq (h : diskaddr b = .ok v) : v = b := by
  unfold diskaddr at h
  split_ifs at h
  exact (Except.ok.inj h).symm

/-- The first access to a page: nothing happens if it is there. -/
lemma touchBlock_spec (h : touchBlock s b = .ok s') :
    s.mapped b = true ∧ s' = s ∨ s.mapped b = false ∧ Fills s s' b := by
  unfold touchBlock at h
  by_cases hm : s.mapped b = true
  · rw [if_pos hm, pure_eq_ok, Except.ok.injEq] at h
    exact .inl ⟨hm, h.symm⟩
  · rw [if_neg hm] at h
    simp only at h
    rcases allocPage_spec s b with ⟨hr, hf⟩ | ⟨hr, -, -⟩
    · rw [hr, if_neg (by decide), pure_eq_ok, Except.ok.injEq] at h
      exact .inr ⟨by simpa using hm, h ▸ hf⟩
    · rw [hr, if_pos eNoMem_ne_zero, throw_eq_error] at h
      exact absurd h (by simp)

/-- `ide_read` of a block of zeros that was not in the cache before brings its contents back. -/
lemma Fills.ideRead (h : Fills s s' b) (hdisk : s'.disk = s.disk) (hm : s.mapped b = false) :
    Loads s (ideRead s' b) where
  content := by
    funext x i
    by_cases hx : x = b
    · subst hx
      have : (MosVolca.ideRead s' x).mapped x = true := h.self
      rw [content_of_mapped this, content_of_not_mapped hm]
      simp [MosVolca.ideRead, BlockCache.setBlock, hdisk]
    · have hcon := congrFun (congrFun h.content x) i
      rw [TwoLevel.fill_of_ne hx] at hcon
      rw [← hcon]
      by_cases hm : s'.mapped x = true <;>
        simp [BlockCache.content, MosVolca.ideRead, BlockCache.setBlock, hx, hm]
  mapped := h.mapped
  super := h.super
  bitmap := h.bitmap

lemma touchBlock_disk (h : touchBlock s b = .ok s') : s'.disk = s.disk := by
  unfold touchBlock at h
  by_cases hm : s.mapped b = true
  · rw [if_pos hm, pure_eq_ok, Except.ok.injEq] at h
    rw [← h]
  · rw [if_neg hm] at h
    simp only at h
    split_ifs at h
    rw [pure_eq_ok, Except.ok.injEq] at h
    rw [← h]
    exact (allocPage_rest s b).1

/-- **Reading a block** keeps the contents and brings the block into the cache. -/
theorem readBlock_loads {isnew : Bool} (h : readBlock s b = .ok (isnew, s')) :
    Loads s s' ∧ s'.mapped b = true := by
  unfold readBlock at h
  split_ifs at h
  obtain ⟨va, hva, h1⟩ := bind_eq_ok.mp h
  obtain rfl := diskaddr_eq hva
  split_ifs at h1 with hm
  · replace h1 := pure_pair_inj h1
    exact h1.2 ▸ ⟨Loads.refl s, hm⟩
  · have hm : s.mapped va = false := by simpa using hm
    have hspec := allocPage_spec s va
    have hrest := (allocPage_rest s va).1
    rcases hpage : allocPage s va with ⟨r, s1⟩
    rw [hpage] at h1 hspec hrest
    obtain ⟨s2, ht, h2⟩ := bind_eq_ok.mp h1
    obtain ⟨-, rfl⟩ := pure_pair_inj h2
    have hdisk : s2.disk = s.disk := (touchBlock_disk ht).trans hrest
    rcases hspec with ⟨-, hfill⟩ | ⟨-, hmap, hload⟩
    · rcases touchBlock_spec ht with ⟨-, rfl⟩ | ⟨hno, -⟩
      · exact ⟨hfill.ideRead hdisk hm, hfill.self⟩
      · exact absurd (hno.symm.trans hfill.self) Bool.false_ne_true
    · rcases touchBlock_spec ht with ⟨hin, -⟩ | ⟨-, hfill⟩
      · rw [hmap] at hin
        exact absurd (hm.symm.trans hin) Bool.false_ne_true
      · have hfill' : Fills s s2 va := ⟨by rw [hfill.content, hload.content],
          fun x hx => hfill.mapped x (hload.mapped x hx), hfill.self, hfill.super.trans hload.super,
          hfill.bitmap.trans hload.bitmap⟩
        exact ⟨hfill'.ideRead hdisk hm, hfill.self⟩

/-- Writing a block back keeps the contents. -/
lemma writeBlock_loads (h : writeBlock s b = .ok s') :
    s.mapped b = true ∧ s'.mapped = s.mapped ∧ Loads s s' := by
  unfold writeBlock blockIsMapped at h
  obtain ⟨m, hm, h1⟩ := bind_eq_ok.mp h
  obtain ⟨va, hva, hm1⟩ := bind_eq_ok.mp hm
  obtain rfl := diskaddr_eq hva
  obtain rfl := Except.ok.inj hm1
  split_ifs at h1 with hmap
  have hmap : s.mapped va = true := by simpa using hmap
  obtain rfl := Except.ok.inj h1
  refine ⟨hmap, rfl, ?_, fun _ hx => hx, rfl, rfl⟩
  funext x
  by_cases hx : x = va
  · subst hx
    rw [content_of_mapped hmap]
    exact content_of_mapped (s := ideWrite s x) hmap
  · unfold BlockCache.content ideWrite
    funext i
    simp [hx]

/-! ## What the server relies on -/

/-- Between two requests: the super block and the bitmap are in the cache, and the contents are
consistent. -/
structure CacheInv (s : BlockCache) : Prop where
  super : s.super = true
  bitmap : s.bitmap = true
  map : ∀ b, 1 ≤ b → b < firstData s.content → s.mapped b = true
  consistent : Consistent s.content

/-- The entries have the blocks that they had, and what is in the cache stays there. -/
structure SameFiles (s s' : BlockCache) : Prop where
  mapped : ∀ b, s.mapped b = true → s'.mapped b = true
  agrees : ∀ f, Dirent s.content f → Agrees s.content s'.content f

/-- A block for data that is in use and in the cache, and that nobody holds. -/
structure Fresh (s : BlockCache) (b : ℕ) : Prop where
  usable : Usable s.content b
  unheld : ∀ f p, Dirent s.content f → ¬ Holds s.content f p b
  mapped : s.mapped b = true

/-- The block that is allocated next is not in the cache, or it is a block of zeros there. -/
def AllocClean (s : BlockCache) : Prop :=
  ∀ b, firstFree s = some b → s.mapped b = true → ∀ i < 1024, s.mem b i = 0

lemma Loads.inv (h : Loads s s') (hs : CacheInv s) : CacheInv s' where
  super := h.super.trans hs.super
  bitmap := h.bitmap.trans hs.bitmap
  map := fun b hb hlt => h.mapped b (hs.map b hb (h.content ▸ hlt))
  consistent := h.content ▸ hs.consistent

lemma Loads.sameFiles (h : Loads s s') : SameFiles s s' where
  mapped := h.mapped
  agrees := fun _ _ _ _ _ => by rw [h.content]

namespace SameFiles

lemma dirent_iff (h : SameFiles s s') : Dirent s'.content f ↔ Dirent s.content f :=
  Consistent.entry_iff h.agrees

lemma trans (h : SameFiles s s1) (h' : SameFiles s1 s') : SameFiles s s' where
  mapped := fun b hb => h'.mapped b (h.mapped b hb)
  agrees := fun f hf x hx hfx => by
    have ha := h.agrees f hf
    have ha' := h'.agrees f (h.dirent_iff.mpr hf)
    rw [← ha.placeOf_eq, ha' x hx ((ha.hasField_iff x).mpr hfx), ha.placeOf_eq, ha x hx hfx]

lemma unheld_iff (h : SameFiles s s') : (∀ f p, Dirent s'.content f → ¬ Holds s'.content f p b) ↔
    ∀ f p, Dirent s.content f → ¬ Holds s.content f p b := by
  constructor
  · intro hno f p hf hp
    exact hno f p (h.dirent_iff.mpr hf) ((h.agrees f hf).holds_iff.mpr hp)
  · intro hno f p hf hp
    have hf := h.dirent_iff.mp hf
    exact hno f p hf ((h.agrees f hf).holds_iff.mp hp)

end SameFiles

/-! ## The bitmap in the contents -/

variable {c : Blocks}

lemma bits_block (h : b < nblocksOf c) : 2 + b / 32 / 1024 < firstData c := by
  have hdiv : b / 32 / 1024 = b / 32768 := by rw [Nat.div_div_eq_div_mul]
  have : b / 32768 ≤ nblocksOf c / 32768 := Nat.div_le_div_right h.le
  rw [hdiv, firstData]
  omega

/-- A store to the bitmap changes 32 bits. -/
lemma bitsOf_putWord : bitsOf (putWord c (BlockCache.bitsPtr k) w) =
    Function.update (bitsOf c) k w := by
  funext j
  by_cases hj : j = k
  · subst hj
    rw [Function.update_self]
    exact TwoLevel.write_same _ _ _ _
  · rw [Function.update_of_ne hj]
    refine TwoLevel.write_of_ne ?_
    simp only [BlockCache.bitsPtr]
    by_contra hcon
    push Not at hcon
    omega

lemma nblocksOf_putBits : nblocksOf (putWord c (BlockCache.bitsPtr k) w) = nblocksOf c :=
  congrArg BitVec.toNat (TwoLevel.write_of_ne (.inl (by simp only [BlockCache.bitsPtr]; omega)))

lemma wordAt_putBits (hk : 2 + k / 1024 < firstData c) (hp : Outside c p) :
    wordAt (putWord c (BlockCache.bitsPtr k) w) p = wordAt c p := by
  refine wordAt_putWord_of_ne fun he => ?_
  rcases hp with ⟨hb, -⟩ | hb <;> rw [he] at hb <;> simp only [BlockCache.bitsPtr] at hb <;> omega

/-- The contents with the bit of a block cleared. -/
def useBit (c : Blocks) (v : ℕ) : Blocks :=
  putWord c (BlockCache.bitsPtr (v / 32)) (bitsOf c (v / 32) &&& ~~~Bitmap.mask 32 v)

/-- The contents with the bit of a block set. -/
def freeBit (c : Blocks) (v : ℕ) : Blocks :=
  putWord c (BlockCache.bitsPtr (v / 32)) (bitsOf c (v / 32) ||| Bitmap.mask 32 v)

lemma isFree_useBit : IsFree (useBit c v) b ↔ IsFree c b ∧ b ≠ v := by
  have hbits : bitsOf (useBit c v) = Bitmap.clear (bitsOf c) v := bitsOf_putWord
  unfold IsFree
  rw [hbits, show nblocksOf (useBit c v) = nblocksOf c from nblocksOf_putBits,
    Bitmap.test_clear (by decide)]
  simp only [Bool.and_eq_true, decide_eq_true_eq, and_assoc]

lemma isFree_freeBit (h : IsFree (freeBit c v) b) : IsFree c b ∨ b = v := by
  have hbits : bitsOf (freeBit c v) = Bitmap.set (bitsOf c) v := bitsOf_putWord
  unfold IsFree at h ⊢
  rw [hbits, show nblocksOf (freeBit c v) = nblocksOf c from nblocksOf_putBits,
    Bitmap.test_set (by decide), Bool.or_eq_true, decide_eq_true_eq] at h
  exact h.2.imp (fun ht => ⟨h.1, ht⟩) id

namespace CacheInv

/-- The super block in the cache gives the size of the disk. -/
lemma nblocks (hs : CacheInv s) : s.nblocks = nblocksOf s.content := by
  have hm : s.mapped 1 = true := hs.map 1 le_rfl (by unfold firstData; omega)
  unfold BlockCache.nblocks nblocksOf
  rw [content_of_mapped hm]

lemma mapped_bits (hs : CacheInv s) (hk : 2 + k / 1024 < firstData s.content) :
    s.mapped (BlockCache.bitsPtr k).block = true :=
  hs.map _ (by simp only [BlockCache.bitsPtr]; omega) hk

lemma bits (hs : CacheInv s) (hk : 2 + k / 1024 < firstData s.content) :
    s.bits k = bitsOf s.content k := by
  have hm : s.mapped (2 + k / 1024) = true := hs.mapped_bits hk
  unfold BlockCache.bits bitsOf
  rw [content_of_mapped hm]

/-- The block that is allocated next is free. -/
lemma isFree_firstFree (hs : CacheInv s) (h : firstFree s = some b) : IsFree s.content b := by
  have hmem := List.mem_of_find?_eq_some h
  have hbit := List.find?_some h
  rw [List.mem_range', hs.nblocks] at hmem
  obtain ⟨i, hi, rfl⟩ := hmem
  have hlt : 3 + 1 * i < nblocksOf s.content := by omega
  refine ⟨hlt, ?_⟩
  rw [hs.bits (bits_block hlt), decide_eq_true_eq] at hbit
  by_contra hno
  exact hbit ((Bitmap.and_mask_eq_zero_iff (by decide)).mpr (by simpa using hno))

/-- A change of the bitmap that frees nothing, or a block that nobody holds. -/
lemma putBits (hs : CacheInv s) (hk : 2 + k / 1024 < firstData s.content)
    (h : Consistent (putWord s.content (BlockCache.bitsPtr k) w)) :
    CacheInv (s.store (BlockCache.bitsPtr k) w) ∧
      SameFiles s (s.store (BlockCache.bitsPtr k) w) := by
  have hcon : (s.store (BlockCache.bitsPtr k) w).content =
      putWord s.content (BlockCache.bitsPtr k) w := content_store (hs.mapped_bits hk)
  refine ⟨⟨hs.super, hs.bitmap, fun b hb hlt => hs.map b hb ?_, hcon ▸ h⟩, fun _ hb => hb,
    fun f hf => ?_⟩
  · rwa [hcon, firstData, nblocksOf_putBits] at hlt
  · rw [hcon]
    exact hs.consistent.agrees_of_map hf fun p hp => wordAt_putBits hk hp

/-- `free_block` of a block that nobody holds. -/
theorem freeBlock (hs : CacheInv s) (hge : firstData s.content ≤ v) (hlt : v < nblocksOf s.content)
    (hno : ∀ f p, Dirent s.content f → ¬ Holds s.content f p v) :
    CacheInv (freeBlock s v) ∧ SameFiles s (freeBlock s v) := by
  have h3 : 3 ≤ firstData s.content := by unfold firstData; omega
  have hbits := bits_block hlt
  unfold MosVolca.freeBlock
  rw [if_neg (by rw [hs.nblocks]; omega), hs.bits hbits]
  exact hs.putBits hbits (hs.consistent.setFree nblocksOf_putBits
    (fun p hp => wordAt_putBits hbits hp) hge (fun b hb => isFree_freeBit hb) hno)

/-- A page of zeros in place of a block that nobody holds. -/
lemma fills (hs : CacheInv s) (hf : Fills s s' b) (hge : firstData s.content ≤ b)
    (hno : ∀ f p, Dirent s.content f → ¬ Holds s.content f p b) :
    CacheInv s' ∧ SameFiles s s' := by
  have hc : Consistent s'.content := hf.content ▸ hs.consistent.fillZero (.inr hge)
  refine ⟨⟨hf.super.trans hs.super, hf.bitmap.trans hs.bitmap, fun x hx hlt => hf.mapped x ?_, hc⟩,
    hf.mapped, fun f hfd x _ hfx => ?_⟩
  · refine hs.map x hx ?_
    rw [hf.content] at hlt
    unfold firstData nblocksOf at hlt hge ⊢
    rwa [TwoLevel.fill_of_ne (by omega)] at hlt
  · rw [hf.content]
    exact TwoLevel.fill_of_ne (hfd.ne_block hfx hge hno)

end CacheInv

/-- The results of `map_block`. -/
lemma mapBlock_cases (h : mapBlock s b = .ok (r, s')) :
    r = 0 ∧ s.mapped b = true ∧ s' = s ∨ r = 0 ∧ Fills s s' b ∨ r = -eNoMem ∧ Loads s s' := by
  unfold mapBlock blockIsMapped at h
  obtain ⟨m, hm, h1⟩ := bind_eq_ok.mp h
  obtain ⟨va, hva, hm1⟩ := bind_eq_ok.mp hm
  obtain rfl := diskaddr_eq hva
  obtain rfl := Except.ok.inj hm1
  split_ifs at h1 with hmap
  · replace h1 := pure_pair_inj h1
    exact .inl ⟨h1.1.symm, hmap, h1.2.symm⟩
  · have hspec := allocPage_spec s va
    rw [Except.ok.inj h1] at hspec
    rcases hspec with ⟨hr, hf⟩ | ⟨hr, -, hl⟩
    · exact .inr (.inl ⟨hr, hf⟩)
    · exact .inr (.inr ⟨hr, hl⟩)

/-- The results of `alloc_block_num`. -/
lemma allocBlockNum_cases {x : Except Word ℕ} (h : allocBlockNum s = .ok (x, s')) :
    (∃ r, x = .error r ∧ s' = s) ∨ ∃ b, x = .ok b ∧ firstFree s = some b ∧ s'.mapped = s.mapped ∧
      Loads (s.store (BlockCache.bitsPtr (b / 32)) (s.bits (b / 32) &&& ~~~Bitmap.mask 32 b)) s' := by
  unfold allocBlockNum at h
  cases hff : firstFree s with
  | none =>
    rw [hff] at h
    replace h := pure_pair_inj h
    exact .inl ⟨_, h.1.symm, h.2.symm⟩
  | some b =>
    rw [hff] at h
    obtain ⟨s1, hw, h1⟩ := bind_eq_ok.mp h
    obtain ⟨rfl, rfl⟩ := pure_pair_inj h1
    obtain ⟨-, hmap, hl⟩ := writeBlock_loads hw
    exact .inr ⟨b, rfl, rfl, hmap, hl⟩

/-- `alloc_block_num` gives a block that nobody holds. -/
lemma CacheInv.allocBlockNum (hs : CacheInv s) (h : allocBlockNum s = .ok (.ok b, s')) :
    CacheInv s' ∧ SameFiles s s' ∧ firstFree s = some b ∧ s'.mapped = s.mapped ∧
      Usable s'.content b ∧ (∀ f p, Dirent s'.content f → ¬ Holds s'.content f p b) ∧
      s'.content b = s.content b := by
  obtain ⟨r, hr, -⟩ | ⟨b', hb', hff, hmap, hload⟩ := allocBlockNum_cases h
  · exact absurd hr (by simp)
  · obtain rfl := Except.ok.inj hb'
    have hfree := hs.isFree_firstFree hff
    have hbits := bits_block hfree.1
    have hge : firstData s.content ≤ b := by
      by_contra hlt
      exact hs.consistent.reserved b (by omega) hfree
    rw [hs.bits hbits] at hload
    obtain ⟨hs1, hsame1⟩ := hs.putBits hbits (hs.consistent.setUsed nblocksOf_putBits
      (fun p hp => wordAt_putBits hbits hp) fun x hx => (isFree_useBit.mp hx).1)
    have hcon : s'.content = useBit s.content b :=
      hload.content.trans (content_store (hs.mapped_bits hbits))
    have hn : nblocksOf s'.content = nblocksOf s.content := by
      rw [hcon]
      exact nblocksOf_putBits
    have hsame := hsame1.trans hload.sameFiles
    refine ⟨hload.inv hs1, hsame, hff, hmap, ⟨?_, hn ▸ hfree.1, ?_⟩, hsame.unheld_iff.mpr ?_, ?_⟩
    · rwa [firstData, hn]
    · rw [hcon]
      exact fun hf => (isFree_useBit.mp hf).2 rfl
    · exact fun f p hf hp => (hs.consistent.usable hf hp).used hfree
    · rw [hcon]
      funext i
      exact TwoLevel.write_of_ne_page (by simp only [BlockCache.bitsPtr]; omega)

/-- **`alloc_block`** gives a block that nobody holds, of zeros if its page is clean. -/
theorem CacheInv.allocBlock (hs : CacheInv s) {x : Except Word ℕ}
    (h : allocBlock s = .ok (x, s')) : CacheInv s' ∧ SameFiles s s' ∧
      ∀ b, x = .ok b → Fresh s' b ∧ (AllocClean s → Blank s'.content b) := by
  unfold MosVolca.allocBlock at h
  obtain ⟨⟨x1, s2⟩, hnum, h1⟩ := bind_eq_ok.mp h
  cases x1 with
  | error r =>
    obtain ⟨-, -, rfl⟩ | ⟨b, hb, -⟩ := allocBlockNum_cases hnum
    · obtain ⟨rfl, rfl⟩ := pure_pair_inj h1
      exact ⟨hs, (Loads.refl _).sameFiles, fun b hb => absurd hb (by simp)⟩
    · exact absurd hb (by simp)
  | ok b =>
    obtain ⟨hs2, hsame, hff, hmap, husable, hno, hcon⟩ := hs.allocBlockNum hnum
    obtain ⟨⟨r, s3⟩, hpage, h2⟩ := bind_eq_ok.mp h1
    simp only at h2
    rcases mapBlock_cases hpage with ⟨rfl, hm, rfl⟩ | ⟨rfl, hf⟩ | ⟨rfl, hl⟩
    · -- the page is in the cache
      simp only [ne_eq, not_true_eq_false, if_false, pure_eq_ok, Except.ok.injEq,
        Prod.mk.injEq] at h2
      obtain ⟨rfl, rfl⟩ := h2
      refine ⟨hs2, hsame, fun b' hb' => ?_⟩
      obtain rfl := Except.ok.inj hb'
      refine ⟨⟨husable, hno, hm⟩, fun hclean i hi => ?_⟩
      rw [hmap] at hm
      rw [hcon, content_of_mapped hm]
      exact hclean b hff hm i hi
    · -- a new page
      simp only [ne_eq, not_true_eq_false, if_false, pure_eq_ok, Except.ok.injEq,
        Prod.mk.injEq] at h2
      obtain ⟨rfl, rfl⟩ := h2
      obtain ⟨hs3, hsame3⟩ := hs2.fills hf husable.ge hno
      refine ⟨hs3, hsame.trans hsame3, fun b' hb' => ?_⟩
      obtain rfl := Except.ok.inj hb'
      refine ⟨⟨?_, hsame3.unheld_iff.mpr hno, hf.self⟩, fun _ i _ => ?_⟩
      · rw [hf.content]
        exact (sameMap_fill (.inr husable.ge)).usable husable
      · rw [hf.content, TwoLevel.fill_same]
    · -- no page: the bit is set again
      rw [if_pos eNoMem_ne_zero] at h2
      obtain ⟨rfl, rfl⟩ := pure_pair_inj h2
      have hs3 := hl.inv hs2
      have hsame3 := hl.sameFiles
      obtain ⟨hs4, hsame4⟩ := hs3.freeBlock (hl.content ▸ husable.ge) (hl.content ▸ husable.lt)
        (hsame3.unheld_iff.mpr hno)
      exact ⟨hs4, (hsame.trans hsame3).trans hsame4, fun b hb => absurd hb (by simp)⟩

/-! ## The start -/

/-- The words of a block are replaced in the cache. -/
lemma content_setBlock {words : ℕ → Word} (h : s.mapped b = true) :
    (s.setBlock b words).content = fun q j => if q = b then words j else s.content q j := by
  funext q j
  unfold BlockCache.content BlockCache.setBlock
  by_cases hq : q = b
  · subst hq
    simp [h]
  · by_cases hm : s.mapped q = true <;> simp [hq, hm]

lemma userAssert_eq {t : Bool} (h : userAssert t s = .ok s') : t = true ∧ s' = s := by
  unfold userAssert at h
  split_ifs at h with ht
  exact ⟨ht, (Except.ok.inj h).symm⟩

/-- `read_super` brings block 1 into the cache. -/
lemma readSuper_spec (h : readSuper s = .ok s') : s'.content = s.content ∧ s'.mapped 1 = true := by
  unfold readSuper at h
  obtain ⟨⟨isnew, s1⟩, hread, h1⟩ := bind_eq_ok.mp h
  obtain ⟨hl, hm⟩ := readBlock_loads hread
  simp only at h1
  split_ifs at h1
  obtain rfl := Except.ok.inj h1
  exact ⟨hl.content, hm⟩

/-- `check_write_block` leaves a copy of the super block in the cache page of block 0. -/
lemma checkWriteBlock_spec (h : checkWriteBlock s = .ok s') (hm : s.mapped 1 = true) :
    s'.mapped 1 = true ∧ s'.super = true ∧ ∀ b ≠ 0, s'.content b = s.content b := by
  unfold checkWriteBlock at h
  obtain ⟨⟨isnew, t0⟩, hread0, h1⟩ := bind_eq_ok.mp h
  obtain ⟨hl0, hm0⟩ := readBlock_loads hread0
  have hc0 : t0.content = s.content := hl0.content
  have hm1 : t0.mapped 1 = true := hl0.mapped 1 hm
  -- the super block is smashed and written
  obtain ⟨t2, hw3, h2⟩ := bind_eq_ok.mp h1
  obtain ⟨-, hmap3, hl3⟩ := writeBlock_loads hw3
  obtain ⟨t3, ha3, h3⟩ := bind_eq_ok.mp h2
  obtain ⟨-, rfl⟩ := userAssert_eq ha3
  obtain ⟨t4, ha4, h4⟩ := bind_eq_ok.mp h3
  obtain ⟨-, rfl⟩ := userAssert_eq ha4
  -- it is read from the disk again
  obtain ⟨⟨isnew5, t4⟩, hread5, h5⟩ := bind_eq_ok.mp h4
  obtain ⟨hl5, hm5⟩ := readBlock_loads hread5
  obtain ⟨t5, ha5, h6⟩ := bind_eq_ok.mp h5
  obtain ⟨-, rfl⟩ := userAssert_eq ha5
  obtain ⟨t7, hw7, h7⟩ := bind_eq_ok.mp h6
  obtain ⟨-, -, hl7⟩ := writeBlock_loads hw7
  obtain rfl := Except.ok.inj h7
  have hc3 : t3.content = fun q j => if q = 1 then oops (t0.mem 1) j else
      if q = 0 then t0.mem 1 j else t0.content q j := by
    rw [hl3.content]
    have hm1' : (t0.setBlock 0 (t0.mem 1)).mapped 1 = true := hm1
    have hmem : (t0.setBlock 0 (t0.mem 1)).mem 1 = t0.mem 1 := rfl
    rw [content_setBlock hm1', content_setBlock hm0, hmem]
  have hc4 : ∀ q ≠ 1, ({ t3 with mapped := Function.update t3.mapped 1 false } : BlockCache).content q
      = t3.content q := by
    intro q hq
    unfold BlockCache.content
    simp [hq]
  have hcopy : t5.mem 0 = t0.mem 1 := by
    have hm50 : t5.mapped 0 = true := hl5.mapped 0 (by
      change Function.update t3.mapped 1 false 0 = true
      rw [Function.update_of_ne (by decide), hmap3]
      exact hm0)
    rw [← content_of_mapped hm50, hl5.content, hc4 0 (by decide), hc3]
    rfl
  refine ⟨hl7.mapped 1 hm5, rfl, fun b hb => ?_⟩
  change t7.content b = s.content b
  rw [hl7.content, content_setBlock hm5, hcopy]
  funext j
  by_cases hb1 : b = 1
  · subst hb1
    simp only [if_true]
    rw [← content_of_mapped hm1, hc0]
  · simp only [if_neg hb1]
    rw [hl5.content, hc4 b hb1, hc3]
    simp only [if_neg hb1, if_neg hb, hc0]

/-- A loop that loads the blocks of a list. -/
lemma foldlM_loadsAll {f : BlockCache → ℕ → Kernel BlockCache} {l : List ℕ} {t t' : BlockCache}
    (hf : ∀ t t' i, f t i = .ok t' → Loads t t' ∧ t'.mapped (i + 2) = true)
    (h : l.foldlM f t = .ok t') : Loads t t' ∧ ∀ i ∈ l, t'.mapped (i + 2) = true := by
  induction l generalizing t with
  | nil =>
    obtain rfl := Except.ok.inj h
    exact ⟨Loads.refl t, fun i hi => absurd hi (by simp)⟩
  | cons i l ih =>
    rw [List.foldlM_cons] at h
    obtain ⟨t1, hstep, ht1⟩ := bind_eq_ok.mp h
    obtain ⟨hl, hm⟩ := hf t t1 i hstep
    obtain ⟨hl', hrest⟩ := ih ht1
    refine ⟨hl.trans hl', fun j hj => ?_⟩
    rcases List.mem_cons.mp hj with rfl | hj
    · exact hl'.mapped _ hm
    · exact hrest j hj

/-- `read_bitmap` brings the bitmap into the cache. -/
lemma readBitmap_spec (h : readBitmap s = .ok s') : s'.content = s.content ∧
    (∀ b, s.mapped b = true → s'.mapped b = true) ∧ s'.super = s.super ∧ s'.bitmap = true ∧
      ∀ b, 2 ≤ b → b < s.nbitmap + 2 → s'.mapped b = true := by
  unfold readBitmap at h
  obtain ⟨s1, hloop, h1⟩ := bind_eq_ok.mp h
  obtain ⟨hl, hmap⟩ := foldlM_loadsAll (fun t t' i hstep => by
    obtain ⟨⟨isnew, t2⟩, hr, hstep⟩ := bind_eq_ok.mp hstep
    obtain rfl := Except.ok.inj hstep
    exact readBlock_loads hr) hloop
  obtain ⟨s2, ha2, h2⟩ := bind_eq_ok.mp h1
  obtain ⟨-, rfl⟩ := userAssert_eq ha2
  obtain ⟨s3, ha3, h3⟩ := bind_eq_ok.mp h2
  obtain ⟨-, rfl⟩ := userAssert_eq ha3
  have hs' : s' = { s1 with bitmap := true } := by
    refine foldlM_invariant (P := fun t => t = { s1 with bitmap := true })
      (fun i _ t t' ht hstep => ?_) rfl h3
    rw [(userAssert_eq hstep).2, ht]
  subst hs'
  refine ⟨hl.content, hl.mapped, hl.super, rfl, fun b h2 hlt => ?_⟩
  obtain ⟨i, rfl⟩ : ∃ i, b = i + 2 := ⟨b - 2, by omega⟩
  exact hmap i (List.mem_range'.mpr ⟨i, by omega, by omega⟩)

/-- After the start the contents are those of the image, apart from block 0, which is tried out. -/
lemma fsInit_content {disk : Blocks} {grants : ℕ → Bool}
    (h : fsInit (BlockCache.off disk grants) = .ok s) (hb : b ≠ 0) : s.content b = disk b := by
  unfold fsInit at h
  obtain ⟨s1, hsuper, h1⟩ := bind_eq_ok.mp h
  obtain ⟨hc1, hm1⟩ := readSuper_spec hsuper
  obtain ⟨s2, hcheck, h2⟩ := bind_eq_ok.mp h1
  rw [(readBitmap_spec h2).1, (checkWriteBlock_spec hcheck hm1).2.2 b hb, hc1]
  rfl

/-- No word of an entry is in block 0. -/
lemma Consistent.place_ne_zero (h : Consistent c) (hf : Dirent c f) {x : Field}
    (hx : HasField c f x) : (placeOf c f x).block ≠ 0 := by
  rcases h.outside_placeOf hf hx with ⟨h1, -⟩ | hge
  · omega
  · unfold firstData at hge
    omega

/-- **The start** from a consistent image. -/
theorem CacheInv.fsInit {disk : Blocks} {grants : ℕ → Bool} (hd : Consistent disk)
    (h : fsInit (BlockCache.off disk grants) = .ok s) : CacheInv s := by
  have hcon := fun b => fsInit_content (b := b) h
  unfold MosVolca.fsInit at h
  obtain ⟨s1, hsuper, h1⟩ := bind_eq_ok.mp h
  obtain ⟨-, hm1⟩ := readSuper_spec hsuper
  obtain ⟨s2, hcheck, h2⟩ := bind_eq_ok.mp h1
  obtain ⟨hm2, hsuper2, -⟩ := checkWriteBlock_spec hcheck hm1
  obtain ⟨hc3, hm3, hsuper3, hbitmap, hmap⟩ := readBitmap_spec h2
  have hmaps : SameMap disk s.content := by
    refine ⟨congrArg BitVec.toNat (congrFun (hcon 1 (by decide)) 1), fun k _ => ?_⟩
    exact congrFun (hcon _ (by omega)) _
  have hlast : firstData s.content = firstData disk := by rw [firstData, hmaps.nblocks, firstData]
  have hblock : s2.nbitmap + 2 = firstData disk := by
    have hn : s2.nblocks = nblocksOf disk := by
      rw [BlockCache.nblocks, ← content_of_mapped hm2, ← hc3, hcon 1 (by decide), nblocksOf]
    rw [BlockCache.nbitmap, hn, firstData]
  refine ⟨hsuper3.trans hsuper2, hbitmap, fun b hb hlt => ?_, ?_⟩
  · rw [hlast, ← hblock] at hlt
    rcases Nat.lt_or_ge b 2 with h2 | h2
    · obtain rfl : b = 1 := by omega
      exact hm3 1 hm2
    · exact hmap b h2 hlt
  · exact hd.congr hmaps.nblocks (fun _ => hmaps.isFree_iff.mp) fun f hf x _ hx =>
      congrFun (hcon _ (hd.place_ne_zero hf hx)) _

end MosVolca
