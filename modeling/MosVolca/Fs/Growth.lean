import MosVolca.Fs.LinkLoops
import MosVolca.Fs.NameSets

/-!
# Room for a new file

`dir_alloc_file` finds the first structure of a directory without a name. If all have names it
finds one exactly if the directory can get one more block, and else the directory has become bigger all
the same.

## Main definitions

* `MosVolca.WholeDir` — a directory with all its blocks, in a cache that gets its pages.
* `MosVolca.spare`, `MosVolca.Room` — there is room for a new file in a directory.

## Main results

* `MosVolca.WholeDir.dirAllocFile_granted` — a structure is found if there is room.
* `MosVolca.WholeDir.dirAllocFile_cases` — what is left behind if there is none.
-/

namespace MosVolca

variable {c c' c1 : Blocks} {s s' s1 : BlockCache} {f g d dir : FilePtr} {b b' i n bno : ℕ} {w : Word}

/-! ## Free blocks -/

lemma allocPage_granted (hg : HasPages s) :
    allocPage s b = (0, (allocPage s b).2) ∧ HasPages (allocPage s b).2 := by
  unfold allocPage
  simp only [hg 0, if_true, true_and]
  exact fun k => hg (k + 1)

namespace CacheInv

/-- A free block is found. -/
lemma firstFree_of_isFree (hs : CacheInv s) (h : IsFree s.content b) : ∃ v, firstFree s = some v := by
  have hge : firstData s.content ≤ b := by
    by_contra hlt
    exact hs.consistent.reserved b (by omega) h
  unfold firstData at hge
  rw [← Option.isSome_iff_exists]
  unfold firstFree
  rw [List.find?_isSome, hs.nblocks]
  refine ⟨b, List.mem_range'.mpr ⟨b - 3, by have := h.1; omega, by omega⟩, decide_eq_true ?_⟩
  rw [hs.bits (bits_block h.1)]
  intro h0
  exact absurd ((Bitmap.and_mask_eq_zero_iff (by decide)).mp h0) (by rw [h.2]; decide)

/-- `alloc_block` returns a block if there is a free one. -/
lemma allocBlock_granted (hs : CacheInv s) (hg : HasPages s) (hn : nblocksOf s.content ≤ 0x40000)
    (hfree : IsFree s.content b) : ∃ v s', MosVolca.allocBlock s = .ok (.ok v, s') ∧ HasPages s' := by
  obtain ⟨v, hv⟩ := hs.firstFree_of_isFree hfree
  have hlt := (hs.isFree_firstFree hv).1
  have hbits := bits_block hlt
  have hmap : s.mapped (v / 32768 + 2) = true := by
    have := hs.mapped_bits hbits
    rwa [BlockCache.bitsPtr, Nat.div_div_eq_div_mul, Nat.add_comm] at this
  generalize ht : s.store (BlockCache.bitsPtr (v / 32))
    (s.bits (v / 32) &&& ~~~Bitmap.mask 32 v) = t
  have hmt : t.mapped = s.mapped := by
    rw [← ht]
    rfl
  have hgt : HasPages t := by
    rw [← ht]
    exact hg
  have hisMapped : ∀ x < 0x40000, ∀ u : BlockCache, blockIsMapped u x = .ok (u.mapped x) := by
    intro x hx u
    unfold blockIsMapped
    rw [show diskaddr x = .ok x from if_neg (Nat.not_le.mpr hx)]
    rfl
  have hwrite : MosVolca.writeBlock t (v / 32768 + 2) = .ok (ideWrite t (v / 32768 + 2)) := by
    unfold MosVolca.writeBlock
    rw [hisMapped _ (by omega), hmt, hmap]
    rfl
  have hnum : MosVolca.allocBlockNum s = .ok (.ok v, ideWrite t (v / 32768 + 2)) := by
    unfold MosVolca.allocBlockNum
    rw [hv]
    simp only [ht]
    rw [hwrite]
    rfl
  have hpage : ∃ u, MosVolca.mapBlock (ideWrite t (v / 32768 + 2)) v = .ok (0, u) ∧ HasPages u := by
    unfold MosVolca.mapBlock
    rw [hisMapped v (by omega)]
    rw [ok_bind]
    by_cases hm : (ideWrite t (v / 32768 + 2)).mapped v = true
    · exact ⟨_, if_pos hm, hgt⟩
    · have hgt : HasPages (ideWrite t (v / 32768 + 2)) := hgt
      obtain ⟨hpage, hgu⟩ := allocPage_granted (b := v) hgt
      refine ⟨_, ?_, hgu⟩
      rw [if_neg hm, hpage]
      rfl
  obtain ⟨u, hpage, hgu⟩ := hpage
  refine ⟨v, u, ?_, hgu⟩
  unfold MosVolca.allocBlock
  rw [hnum]
  simp only [ok_bind]
  rw [hpage]
  rfl

/-- `alloc_block` takes one free block. -/
lemma allocBlock_takes (hs : CacheInv s) (h : MosVolca.allocBlock s = .ok (.ok b, s')) :
    IsFree s.content b ∧ ∀ x, IsFree s.content x → x ≠ b → IsFree s'.content x := by
  unfold MosVolca.allocBlock at h
  obtain ⟨⟨y, s1⟩, hnum, h1⟩ := bind_eq_ok.mp h
  cases y with
  | error r => simp at h1
  | ok v =>
    obtain ⟨⟨r, s2⟩, hpage, h2⟩ := bind_eq_ok.mp h1
    simp only at h2
    split_ifs at h2 with hr
    · simp at h2
    obtain ⟨hv, rfl⟩ := pure_pair_inj h2
    obtain rfl := Except.ok.inj hv
    obtain ⟨-, -, hff, -, hu, -⟩ := hs.allocBlockNum hnum
    have hfree := hs.isFree_firstFree hff
    have hcon : s1.content = useBit s.content v := by
      rcases allocBlockNum_cases hnum with ⟨r, hr, -⟩ | ⟨v', hv', hff', -, hload⟩
      · simp at hr
      · obtain rfl := Except.ok.inj hv'
        rw [hs.bits (bits_block hfree.1)] at hload
        exact hload.content.trans (content_store (hs.mapped_bits (bits_block hfree.1)))
    have hother : ∀ x, IsFree s2.content x ↔ IsFree s1.content x := by
      rcases mapBlock_cases hpage with ⟨-, -, rfl⟩ | ⟨-, hf⟩ | ⟨rfl, -⟩
      · exact fun _ => Iff.rfl
      · rw [hf.content]
        exact fun x => (sameMap_fill (.inr hu.ge)).isFree_iff
      · exact absurd eNoMem_ne_zero hr
    refine ⟨hfree, fun x hx hne => ?_⟩
    rw [hother, hcon]
    exact isFree_useBit.mpr ⟨hx, hne⟩

/-! ## A new block -/

/-- A block pointer that holds nothing is 0. -/
lemma slot_eq_zero (hfield : HasField c f (Slot.data i).field) (hno : ∀ b, ¬ Holds c f (.data i) b) :
    wordAt c (placeOf c f (Slot.data i).field) = 0 := by
  by_contra hne
  exact hno _ ⟨hfield, hne, rfl⟩

/-- The place of a block pointer that is 0, if there are free blocks for what is missing. -/
lemma fileBlockWalk_room (hs : CacheInv s) (hg : HasPages s) (hn : nblocksOf s.content ≤ 0x40000)
    (hf : Dirent s.content f) (hm : s.mapped f.block = true) (hclean : WalkClean s f i)
    (hi : i < nindirect) (hno : ∀ b, ¬ Holds s.content f (.data i) b) (hfree : IsFree s.content b)
    (hfree2 : ndirect ≤ i → wordAt s.content f.indirect = 0 → ∃ b', IsFree s.content b' ∧ b' ≠ b) :
    ∃ ptr s1, MosVolca.fileBlockWalk s f i true = .ok (.ok ptr, s1) ∧ HasPages s1 ∧ s1.load ptr = 0 ∧
      ∃ v, IsFree s1.content v := by
  unfold MosVolca.fileBlockWalk
  by_cases hd : i < ndirect
  · refine ⟨_, s, if_pos hd, hg, ?_, b, hfree⟩
    have hfield : (Slot.data i).field = .head (34 + i) := if_pos hd
    have h0 := slot_eq_zero (by rw [hfield]; have : i < 10 := hd; exact (by omega : 34 + i < 64)) hno
    rw [hfield] at h0
    exact (load_eq (p := f.direct i) hm).trans h0
  rw [if_neg hd, if_pos hi]
  have hfield : (Slot.data i).field = .far i := if_neg hd
  have hd := Nat.not_lt.mp hd
  have hind := load_eq (p := f.indirect) hm
  by_cases h0 : s.load f.indirect = 0
  · -- an indirect block is made
    obtain ⟨v, t, halloc, hgt⟩ := hs.allocBlock_granted hg hn hfree
    obtain ⟨hv, hrest⟩ := hs.allocBlock_takes halloc
    obtain ⟨hst, hsame, hfresh⟩ := hs.allocBlock halloc
    obtain ⟨hfresh, hblank⟩ := hfresh v rfl
    have hac := hclean hd hi h0
    have hblank := hblank hac
    have hneed : MosVolca.needIndirect s f true =
        .ok (.ok (), t.store f.indirect (BitVec.ofNat 32 v)) := by
      unfold MosVolca.needIndirect
      rw [if_pos h0, if_pos rfl, halloc]
      rfl
    have hft := hsame.dirent_iff.mpr hf
    have hmt := hsame.mapped _ hm
    obtain ⟨hs1, hgrows, hne⟩ := hs.needIndirect hf hm hneed fun _ _ => hac
    have hload : (t.store f.indirect (BitVec.ofNat 32 v)).load f.indirect = BitVec.ofNat 32 v :=
      load_store_self _ _ _
    have hvn : (BitVec.ofNat 32 v).toNat = v := by
      have := hv.1
      rw [BitVec.toNat_ofNat, Nat.mod_eq_of_lt (by omega)]
    have hcon : (t.store f.indirect (BitVec.ofNat 32 v)).content =
        putWord t.content f.indirect (BitVec.ofNat 32 v) := content_store (p := f.indirect) hmt
    have hu := hs1.consistent.usable (hgrows.dirent f hf)
      (holds_indirect (by rw [← load_eq (p := f.indirect) (hgrows.mapped _ hm)]; exact hne rfl))
    rw [← load_eq (p := f.indirect) (hgrows.mapped _ hm), hload, hvn] at hu
    have hext := hs.needIndirect_extends hf hm hneed fun _ _ => hac
    obtain ⟨isnew, s1, hread, hg1⟩ := hs1.readBlock_granted hgt (by rw [hext.nblocks]; exact hn) hu
    obtain ⟨hl1, hm1⟩ := readBlock_loads hread
    refine ⟨⟨v, i⟩, s1, ?_, hg1, ?_, ?_⟩
    · rw [hneed]
      simp only [ok_bind, hload, hvn, hread]
      rfl
    · have hvf : v ≠ f.block := by
        rintro rfl
        exact hs.consistent.placeOf_used hf (x := .head 0) (by decide : 0 < 64) hv
      rw [load_eq (p := ⟨v, i⟩) hm1, hl1.content, hcon, ← hblank i hi]
      exact wordAt_putWord_of_ne fun he => hvf (congrArg WordPtr.block he)
    · have hother : ∃ x, IsFree s.content x ∧ x ≠ v := by
        obtain ⟨b', hb', hne'⟩ := hfree2 hd (hind ▸ h0)
        by_cases hbv : b = v
        · exact ⟨b', hb', hbv ▸ hne'⟩
        · exact ⟨b, hfree, hbv⟩
      obtain ⟨x, hx, hxv⟩ := hother
      refine ⟨x, ?_⟩
      rw [hl1.content, hcon]
      refine (sameMap_putWord (hst.consistent.outside_placeOf hft (x := .head 44)
        (by decide : 44 < 64))).isFree_iff.mpr (hrest x hx hxv)
  · -- the indirect block is there
    have hneed : MosVolca.needIndirect s f true = .ok (.ok (), s) := if_neg h0
    have hu := hs.consistent.usable hf (holds_indirect (hind ▸ h0))
    rw [← hind] at hu
    obtain ⟨isnew, s1, hread, hg1⟩ := hs.readBlock_granted hg hn hu
    obtain ⟨hl1, hm1⟩ := readBlock_loads hread
    refine ⟨⟨(s.load f.indirect).toNat, i⟩, s1, ?_, hg1, ?_, b, ?_⟩
    · rw [hneed]
      simp only [ok_bind, hread]
      rfl
    · have hzero := slot_eq_zero (by rw [hfield]; exact ⟨hd, hi, hind ▸ h0⟩) hno
      rw [hfield, placeOf, ← hind] at hzero
      rwa [load_eq (p := ⟨(s.load f.indirect).toNat, i⟩) hm1, hl1.content]
    · rwa [hl1.content]

/-- `file_get_block` of a block that is missing returns, if there are free blocks. -/
lemma fileGetBlock_room (hs : CacheInv s) (hg : HasPages s) (hn : nblocksOf s.content ≤ 0x40000)
    (hf : Dirent s.content f) (hm : s.mapped f.block = true) (hclean : MapClean s f i)
    (hi : i < nindirect) (hno : ∀ b, ¬ Holds s.content f (.data i) b) (hfree : IsFree s.content b)
    (hfree2 : ndirect ≤ i → wordAt s.content f.indirect = 0 → ∃ b', IsFree s.content b' ∧ b' ≠ b) :
    ∃ v s', MosVolca.fileGetBlock s f i = .ok (.ok v, s') ∧ HasPages s' := by
  obtain ⟨ptr, s1, hwalk, hg1, h0, x, hx⟩ :=
    hs.fileBlockWalk_room hg hn hf hm hclean.1 hi hno hfree hfree2
  obtain ⟨hs1, -, -⟩ := hs.fileBlockWalk hf hm hwalk fun _ => hclean.1
  have hext := hs.fileBlockWalk_extends hf hm hwalk fun _ => hclean.1
  obtain ⟨v, s2, halloc, hg2⟩ := hs1.allocBlock_granted hg1 (by rw [hext.nblocks]; exact hn) hx
  have hmap : MosVolca.fileMapBlock s f i true = .ok (.ok v, s2.store ptr (BitVec.ofNat 32 v)) := by
    unfold MosVolca.fileMapBlock
    rw [hwalk]
    simp only [ok_bind]
    rw [if_pos h0, if_pos trivial, halloc]
    rfl
  obtain ⟨hs3, hgrows, hold⟩ := hs.fileMapBlock hf hm hmap hclean
  have hext3 := hs.fileMapBlock_extends hf hm hmap hclean
  obtain ⟨isnew, s4, hread, hg4⟩ := hs3.readBlock_granted hg2 (by rw [hext3.nblocks]; exact hn)
    (hs3.consistent.usable (hgrows.dirent f hf) (hold v rfl))
  refine ⟨v, s4, ?_, hg4⟩
  unfold MosVolca.fileGetBlock
  rw [hmap]
  simp only [ok_bind, hread]
  rfl

/-! ## Walks -/

end CacheInv

/-- The structures of files stay, apart from `f_dir`, which is for the memory only. -/
def KeepsStructures (c c' : Blocks) : Prop := ∀ g, Dirent c g → ∀ k < 64, k ≠ 45 →
  wordAt c' ⟨g.block, g.word + k⟩ = wordAt c ⟨g.block, g.word + k⟩

namespace CacheInv

/-- **A walk that makes no blocks** keeps the structures of files. -/
theorem looks (hs : CacheInv s) (h : Looks s s') :
    Visits s s' ∧ KeepsStructures s.content s'.content := by
  refine ⟨h.visits hs, ?_⟩
  induction h with
  | refl => exact fun _ _ _ _ _ => rfl
  | read _ hread ih =>
    rw [(readBlock_loads hread).1.content]
    exact ih
  | @dir t f r hl hf hm ih =>
    have hv := hl.visits hs
    have hfield : HasField t.content f (.head 45) := (by decide : 45 < 64)
    intro g hg k hk hne
    rw [← ih g hg k hk hne, content_store (p := f.dir) hm]
    refine wordAt_putWord_of_ne fun he => hne ?_
    have hg := hv.same.dirent_iff.mpr hg
    have hx := (hv.inv.consistent.place_inj hg hf (x := .head k) hk hfield he).2
    rwa [Field.head.injEq] at hx

end CacheInv

/-! ## Room -/

/-- The first structure of a directory without a name: one with the empty name. -/
def spare (c : Blocks) (d : FilePtr) : Option FilePtr := lookup c d []

/-- The directory can get one more block: it has the block behind its size, or there are free blocks
for it and for the indirect block if that is missing. -/
def CanGrow (c : Blocks) (d : FilePtr) : Prop :=
  sizeBlocksOf c d < nindirect ∧ ((∃ b, Holds c d (.data (sizeBlocksOf c d)) b) ∨
    ∃ b, IsFree c b ∧ (ndirect ≤ sizeBlocksOf c d → wordAt c d.indirect = 0 →
      ∃ b', IsFree c b' ∧ b' ≠ b))

/-- **There is room for a new file** in the directory. -/
def Room (c : Blocks) (d : FilePtr) : Prop := (∃ f, spare c d = some f) ∨ CanGrow c d

/-- A directory with all its blocks, in a cache that gets its pages. -/
structure WholeDir (s : BlockCache) (dir : FilePtr) : Prop where
  inv : CacheInv s
  pages : HasPages s
  small : nblocksOf s.content ≤ 0x40000
  dirent : Dirent s.content dir
  mapped : s.mapped dir.block = true
  type : wordAt s.content dir.type = ftypeDir
  blocks : ∀ i < sizeBlocksOf s.content dir, ∃ b, Holds s.content dir (.data i) b

/-- The structure that the inner loop of `dir_alloc_file` stops at is the first with the empty name. -/
lemma findFree_eq (hm : s.mapped b = true) : findFree s b = findEntry s.content b [] := by
  unfold findFree findEntry
  refine congrArg (List.find? · _) (funext fun j => Bool.eq_iff_iff.mpr ?_)
  rw [beq_iff_eq, decide_eq_true_iff, nameByte_zero (f := FilePtr.entry b j) hm]
  refine ⟨fun h k hk => ?_, fun h => h 0 (by decide)⟩
  obtain rfl : k = 0 := by simpa using hk
  exact h

/-- A block that is there is not made. -/
lemma mapClean_of_holds (hm : s.mapped f.block = true) (hold : Holds s.content f (.data i) b) :
    MapClean s f i := by
  refine ⟨fun hd _ h0 => ?_, fun ptr s1 hwalk h0 => ?_⟩
  · have hfield := hold.hasField
    rw [show (Slot.data i).field = .far i from if_neg (Nat.not_lt.mpr hd)] at hfield
    rw [load_eq (p := f.indirect) hm] at h0
    exact absurd h0 hfield.2.2
  · obtain ⟨ptr', hx, -, -, hne, -⟩ := fileBlockWalk_held hm hold hwalk
    cases hx
    exact absurd h0 hne

namespace WholeDir

/-- Blocks are read. -/
lemma loads (h : WholeDir s dir) (hl : Loads s s') (hg : HasPages s') : WholeDir s' dir where
  inv := hl.inv h.inv
  pages := hg
  small := hl.content ▸ h.small
  dirent := hl.content ▸ h.dirent
  mapped := hl.mapped _ h.mapped
  type := hl.content ▸ h.type
  blocks := hl.content ▸ h.blocks

/-- A directory with all its blocks has at most `NINDIRECT` of them. -/
lemma le_nindirect (h : WholeDir s dir) : sizeBlocksOf s.content dir ≤ nindirect := by
  by_contra hlt
  obtain ⟨b, hold⟩ := h.blocks nindirect (Nat.lt_of_not_le hlt)
  exact absurd hold.lt_nindirect (Nat.lt_irrefl _)

/-- **The loop of `dir_alloc_file`** in a directory with all its blocks: it stops at the first structure
without a name, or there is none and the directory grows. -/
lemma dirAllocFrom_scan (h : WholeDir s dir) (hi : i + n = sizeBlocksOf s.content dir) :
    ∃ t, Loads s t ∧ WholeDir t dir ∧
      ((∃ f, lookupFrom s.content dir [] n i = some f ∧ dirAllocFrom s dir n i = .ok (.ok f, t)) ∨
        lookupFrom s.content dir [] n i = none ∧
          dirAllocFrom s dir n i = dirGrow t dir (sizeBlocksOf t.content dir) ∧
          (AllocFileClean s dir n i → GrowClean t dir (sizeBlocksOf t.content dir))) := by
  induction n generalizing s i with
  | zero =>
    obtain rfl : i = sizeBlocksOf s.content dir := hi
    exact ⟨s, .refl s, h, .inr ⟨rfl, rfl, id⟩⟩
  | succ n ih =>
    obtain ⟨b, hold⟩ := h.blocks i (by omega)
    obtain ⟨s1, hget, hg1⟩ := h.inv.fileGetBlock_granted h.pages h.small h.dirent h.mapped hold
    obtain ⟨-, hload, hmb, -⟩ := fileGetBlock_held h.mapped hold hget
    have hfind := findFree_eq hmb
    rw [hload.content] at hfind
    rw [dirAllocFrom, hget, lookupFrom, blockOf_eq_some.mpr hold, Option.bind_some, ← hfind]
    simp only [ok_bind]
    cases hf : findFree s1 b with
    | some j => exact ⟨s1, hload, h.loads hload hg1, .inl ⟨_, rfl, rfl⟩⟩
    | none =>
      obtain ⟨t, hlt, ht, hcase⟩ := ih (h.loads hload hg1) (i := i + 1) (by rw [hload.content]; omega)
      rw [hload.content] at hcase
      refine ⟨t, hload.trans hlt, ht, ?_⟩
      rcases hcase with hfound | ⟨hnone, heq, hclean⟩
      · exact .inl hfound
      · exact .inr ⟨hnone, heq, fun hc => hclean (hc.2 b s1 hget hf)⟩

/-- **`dir_alloc_file`** takes the first structure without a name, or the directory grows. -/
lemma dirAllocFile_scan (h : WholeDir s dir)
    (hclean : AllocFileClean s dir (s.sizeBlocks dir) 0) :
    ∃ t, t.content = s.content ∧ WholeDir t dir ∧
      ((∃ f, spare s.content dir = some f ∧ dirAllocFile s dir = .ok (.ok f, t)) ∨
        spare s.content dir = none ∧ GrowClean t dir (sizeBlocksOf t.content dir) ∧
          dirAllocFile s dir = dirGrow t dir (sizeBlocksOf t.content dir)) := by
  unfold dirAllocFile spare lookup
  rw [CacheInv.sizeBlocks_eq h.mapped] at hclean ⊢
  obtain ⟨t, hload, ht, hcase⟩ := h.dirAllocFrom_scan (i := 0) (Nat.zero_add _)
  refine ⟨t, hload.content, ht, ?_⟩
  rcases hcase with hfound | ⟨hnone, heq, hgrow⟩
  · exact .inl hfound
  · exact .inr ⟨hnone, hgrow hclean, heq⟩

/-- Nothing is asked of the free blocks if there is a structure without a name. -/
lemma allocFromClean (h : WholeDir s dir) (hi : i + n ≤ sizeBlocksOf s.content dir)
    (hf : lookupFrom s.content dir [] n i = some f) : AllocFileClean s dir n i := by
  induction n generalizing s i with
  | zero => cases hf
  | succ n ih =>
    obtain ⟨b, hold⟩ := h.blocks i (by omega)
    refine ⟨mapClean_of_holds h.mapped hold, fun blk s1 hget hnone => ?_⟩
    obtain ⟨s2, hget', hg1⟩ := h.inv.fileGetBlock_granted h.pages h.small h.dirent h.mapped hold
    cases hget'.symm.trans hget
    obtain ⟨-, hload, hmb, -⟩ := fileGetBlock_held h.mapped hold hget
    rw [findFree_eq hmb, hload.content] at hnone
    rw [lookupFrom, blockOf_eq_some.mpr hold, Option.bind_some, hnone] at hf
    exact ih (h.loads hload hg1) (by rw [hload.content]; omega) (hload.content ▸ hf)

end WholeDir

/-! ## Growth -/

/-- The cache after the directory `dir` has become bigger by a block. -/
structure Grown (s s1 : BlockCache) (dir : FilePtr) : Prop where
  inv : CacheInv s1
  dirent : Dirent s1.content dir
  mapped : s1.mapped dir.block = true
  pages : HasPages s1
  content : s1.content = putWord s.content dir.size (wordAt s.content dir.size + 4096)
  clean : MapClean s1 dir (sizeBlocksOf s.content dir)
  size : (wordAt s.content dir.size + 4096).toNat / 4096 = sizeBlocksOf s.content dir + 1

namespace WholeDir

/-- `dir->f_size += BY2BLK` -/
lemma grown (h : WholeDir s dir) (hclean : GrowClean s dir (sizeBlocksOf s.content dir)) :
    Grown s (s.store dir.size (s.load dir.size + 4096)) dir := by
  have hload := load_eq (p := dir.size) h.mapped
  have hsize := CacheInv.dirGrow_size h.mapped rfl h.le_nindirect
  obtain ⟨hs1, hd1⟩ := h.inv.setSize (w := s.load dir.size + 4096) h.dirent h.mapped
    fun j b _ hge hj hold => by
      have : j = sizeBlocksOf s.content dir := by omega
      exact hclean.1 b (this ▸ hold)
  refine ⟨hs1, hd1, h.mapped, h.pages, ?_, hclean.2, hload ▸ hsize⟩
  rw [← hload]
  exact content_store h.mapped

end WholeDir

namespace Grown

lemma sameMap (h : Grown s s1 dir) (hc : Consistent s.content) (hd : Dirent s.content dir) :
    SameMap s.content s1.content := by
  rw [h.content]
  exact sameMap_putWord (hc.outside_placeOf hd (x := .head 32) (by decide : 32 < 64))

/-- A file that is not the directory has its blocks as before. -/
lemma holds_iff {q : Slot} (h : Grown s s1 dir) (hc : Consistent s.content) (hd : Dirent s.content dir)
    (hg : Dirent s.content g) : Holds s1.content g q b ↔ Holds s.content g q b := by
  rw [h.content]
  exact hc.holds_putHead (k := 32) hg hd (by decide)

/-- The words of a structure but for the size stay. -/
lemma head {k : ℕ} (h : Grown s s1 dir) (hc : Consistent s.content) (hd : Dirent s.content dir)
    (hg : Dirent s.content g) (hk : k < 64) (hne : k ≠ 32) :
    wordAt s1.content ⟨g.block, g.word + k⟩ = wordAt s.content ⟨g.block, g.word + k⟩ := by
  rw [h.content]
  exact hc.head_putSize hd hg hk hne

end Grown

namespace WholeDir

/-- A directory that can grow gets its block. -/
lemma dirGrow_granted (h : WholeDir s dir) (hclean : GrowClean s dir (sizeBlocksOf s.content dir))
    (hroom : CanGrow s.content dir) :
    ∃ f s', dirGrow s dir (sizeBlocksOf s.content dir) = .ok (.ok f, s') := by
  obtain ⟨hlt, hroom⟩ := hroom
  have hc := h.inv.consistent
  have hgr := h.grown hclean
  generalize hs1 : s.store dir.size (s.load dir.size + 4096) = s1 at hgr
  have hmap := hgr.sameMap hc h.dirent
  have hn1 : nblocksOf s1.content ≤ 0x40000 := by
    rw [hmap.nblocks]
    exact h.small
  have hget : ∃ v s', fileGetBlock s1 dir (sizeBlocksOf s.content dir) = .ok (.ok v, s') := by
    by_cases hheld : ∃ b, Holds s.content dir (.data (sizeBlocksOf s.content dir)) b
    · obtain ⟨b, hold⟩ := hheld
      obtain ⟨s', hget, -⟩ := hgr.inv.fileGetBlock_granted hgr.pages hn1 hgr.dirent hgr.mapped
        ((hgr.holds_iff hc h.dirent h.dirent).mpr hold)
      exact ⟨b, s', hget⟩
    · obtain ⟨b, hfree, hfree2⟩ := hroom.resolve_left hheld
      obtain ⟨v, s', hget, -⟩ := hgr.inv.fileGetBlock_room hgr.pages hn1 hgr.dirent hgr.mapped hgr.clean
        hlt (fun b hold => hheld ⟨b, (hgr.holds_iff hc h.dirent h.dirent).mp hold⟩)
        (hmap.isFree_iff.mpr hfree) fun hge h0 => by
          obtain ⟨b', hb', hne⟩ := hfree2 hge (by
            rw [← h0]
            exact (hgr.head (k := 44) hc h.dirent h.dirent (by decide) (by decide)).symm)
          exact ⟨b', hmap.isFree_iff.mpr hb', hne⟩
      exact ⟨v, s', hget⟩
  obtain ⟨v, s', hget⟩ := hget
  refine ⟨FilePtr.entry v 0, s', ?_⟩
  unfold dirGrow
  rw [hs1, hget]
  rfl

/-- What `dir_alloc_file` leaves behind when it has made the directory bigger: the size, and a block of
zeros if there was room for it. -/
lemma dirGrow_cases {x : Except Word FilePtr} (h : WholeDir s dir)
    (hclean : GrowClean s dir (sizeBlocksOf s.content dir))
    (hrun : dirGrow s dir (sizeBlocksOf s.content dir) = .ok (x, s')) :
    wordAt s'.content dir.size = wordAt s.content dir.size + 4096 ∧
      ∀ f, x = .ok f → CanGrow s.content dir ∧ wordAt s'.content f.type = 0 := by
  have hc := h.inv.consistent
  have hgr := h.grown hclean
  have hzero : ∀ f, x = .ok f → wordAt s'.content f.type = 0 := by
    rintro f rfl
    obtain ⟨b, rfl, hblank⟩ :=
      h.inv.dirGrow_blank h.dirent h.mapped h.type rfl h.le_nindirect hrun hclean
    exact hblank.word_head (by decide) (by decide : 33 < 64)
  unfold dirGrow at hrun
  generalize s.store dir.size (s.load dir.size + 4096) = s1 at hgr hrun
  obtain ⟨⟨y, s2⟩, hget, h1⟩ := bind_eq_ok.mp hrun
  obtain ⟨hs2, hgrows, hblk⟩ := hgr.inv.fileGetBlock hgr.dirent hgr.mapped hget hgr.clean
  have hext := hgr.inv.fileGetBlock_extends hgr.dirent hgr.mapped hget hgr.clean
  have hword : wordAt s2.content dir.size = wordAt s.content dir.size + 4096 := by
    rw [hgrows.size dir hgr.dirent, hgr.content]
    exact wordAt_putWord_self _ _ _
  cases y with
  | error r =>
    cases h1
    refine ⟨hword, fun f hf => ?_⟩
    cases hf
  | ok blk =>
    cases h1
    refine ⟨hword, fun f hf => ⟨?_, hzero f hf⟩⟩
    obtain ⟨hold, -⟩ := hblk blk rfl
    have htaken : ∀ q b, Holds s'.content dir q b → Holds s.content dir q b ∨ IsFree s.content b :=
      fun q b hq => (hext.taken q b hq).imp (hgr.holds_iff hc h.dirent h.dirent).mp
        (hgr.sameMap hc h.dirent).isFree_iff.mp
    refine ⟨hold.lt_nindirect, ?_⟩
    rcases htaken _ _ hold with hheld | hfree
    · exact .inl ⟨blk, hheld⟩
    · refine .inr ⟨blk, hfree, fun hge h0 => ?_⟩
      have hfield := hold.hasField
      rw [show (Slot.data (sizeBlocksOf s.content dir)).field = .far (sizeBlocksOf s.content dir) from
        if_neg (Nat.not_lt.mpr hge)] at hfield
      have hind := holds_indirect hfield.2.2
      rcases htaken _ _ hind with hheld | hfree'
      · exact absurd h0 hheld.2.1
      · refine ⟨_, hfree', fun he => ?_⟩
        have hd2 := hgrows.dirent dir hgr.dirent
        exact absurd (hs2.consistent.once hd2 hd2 (he ▸ hind) hold).2 (by simp)

/-- The entries keep their types and their blocks, and no directory becomes smaller. -/
lemma dirGrow_kept {x : Except Word FilePtr} (h : WholeDir s dir)
    (hclean : GrowClean s dir (sizeBlocksOf s.content dir))
    (hrun : dirGrow s dir (sizeBlocksOf s.content dir) = .ok (x, s')) (hg : Dirent s.content g) :
    wordAt s'.content g.type = wordAt s.content g.type ∧
      sizeBlocksOf s.content g ≤ sizeBlocksOf s'.content g ∧
      ∀ i b, Holds s.content g (.data i) b → Holds s'.content g (.data i) b := by
  have hc := h.inv.consistent
  have hgr := h.grown hclean
  have hsize := (h.dirGrow_cases hclean hrun).1
  unfold dirGrow at hrun
  generalize s.store dir.size (s.load dir.size + 4096) = s1 at hgr hrun
  obtain ⟨⟨y, s2⟩, hget, h1⟩ := bind_eq_ok.mp hrun
  have hg1 : Dirent s1.content g := by
    have hold := hgr.size
    rw [hgr.content]
    refine Dirent.of_size hc h.dirent hg ?_
    unfold sizeBlocksOf at hold
    omega
  obtain ⟨-, hgrows, -⟩ := hgr.inv.fileGetBlock hgr.dirent hgr.mapped hget hgr.clean
  have hadds := hgr.inv.fileGetBlock_addsBlock hgr.dirent hgr.mapped hget hgr.clean
  obtain rfl : s2 = s' := by
    cases y <;> cases h1 <;> rfl
  refine ⟨?_, ?_, fun i b hold => hadds.kept g i b hg1 ((hgr.holds_iff hc h.dirent hg).mpr hold)⟩
  · rw [hgrows.type g hg1]
    exact hgr.head (k := 33) hc h.dirent hg (by decide) (by decide)
  · by_cases hgd : g = dir
    · subst hgd
      have hold := hgr.size
      rw [← hsize] at hold
      exact (Nat.le_succ _).trans_eq hold.symm
    · have hag : Agrees s.content s1.content g := by
        rw [hgr.content]
        exact hc.agrees_of_field hg h.dirent (y := .head 32) (by decide : 32 < 64) (.inl hgd)
      rw [sizeBlocksOf, sizeBlocksOf, hgrows.size g hg1, hag.size]

/-- **`dir_alloc_file`** finds a structure if there is room. -/
theorem dirAllocFile_granted (h : WholeDir s dir)
    (hclean : AllocFileClean s dir (s.sizeBlocks dir) 0) (hroom : Room s.content dir) :
    ∃ f s', dirAllocFile s dir = .ok (.ok f, s') := by
  obtain ⟨t, hcon, ht, ⟨f, -, heq⟩ | ⟨hnone, hgrow, heq⟩⟩ := h.dirAllocFile_scan hclean
  · exact ⟨f, t, heq⟩
  · rw [heq]
    refine ht.dirGrow_granted hgrow (hcon ▸ hroom.resolve_left ?_)
    rintro ⟨f, hf⟩
    cases hnone.symm.trans hf

/-- **What `dir_alloc_file` tells**: there was room if it finds a structure, which is of the type of a
link only if the first one without a name was, and the directory is bigger if it finds none. -/
theorem dirAllocFile_cases {x : Except Word FilePtr} (h : WholeDir s dir)
    (hclean : AllocFileClean s dir (s.sizeBlocks dir) 0) (hrun : dirAllocFile s dir = .ok (x, s')) :
    (∀ f, x = .ok f → Room s.content dir ∧ (wordAt s'.content f.type = ftypeLnk ↔
      ∃ g, spare s.content dir = some g ∧ wordAt s.content g.type = ftypeLnk)) ∧
      ∀ r, x = .error r → wordAt s'.content dir.size = wordAt s.content dir.size + 4096 := by
  obtain ⟨t, hcon, ht, ⟨f, hf, heq⟩ | ⟨hnone, hgrow, heq⟩⟩ := h.dirAllocFile_scan hclean
  · cases heq.symm.trans hrun
    refine ⟨fun g hg => ?_, fun r hr => by cases hr⟩
    cases hg
    simp only [hf, hcon, Option.some.injEq, exists_eq_left', and_true]
    exact .inl ⟨f, hf⟩
  · obtain ⟨hsize, hfound⟩ := ht.dirGrow_cases hgrow (heq.symm.trans hrun)
    refine ⟨fun f hf => ⟨.inr (hcon ▸ (hfound f hf).1), ?_⟩, fun _ _ => hcon ▸ hsize⟩
    rw [(hfound f hf).2, hnone]
    refine iff_of_false (by decide) ?_
    rintro ⟨g, hg, -⟩
    cases hg

/-- The entries keep their types and their blocks, and no directory becomes smaller. -/
lemma dirAllocFile_kept {x : Except Word FilePtr} (h : WholeDir s dir)
    (hclean : AllocFileClean s dir (s.sizeBlocks dir) 0) (hrun : dirAllocFile s dir = .ok (x, s'))
    (hg : Dirent s.content g) :
    wordAt s'.content g.type = wordAt s.content g.type ∧
      sizeBlocksOf s.content g ≤ sizeBlocksOf s'.content g ∧
      ∀ i b, Holds s.content g (.data i) b → Holds s'.content g (.data i) b := by
  obtain ⟨t, hcon, ht, ⟨f, -, heq⟩ | ⟨-, hgrow, heq⟩⟩ := h.dirAllocFile_scan hclean
  · cases heq.symm.trans hrun
    rw [hcon]
    exact ⟨rfl, le_rfl, fun _ _ => id⟩
  · rw [← hcon] at hg ⊢
    exact ht.dirGrow_kept hgrow (heq.symm.trans hrun) hg

end WholeDir

end MosVolca
