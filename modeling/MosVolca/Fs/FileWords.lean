import MosVolca.Fs.PathCases

/-!
# The words that a function changes

A function that works on one file writes to the words of that file that say which blocks it has, to
the bitmap and to blocks that were free. It takes free blocks only, and frees only blocks that the
file held. So every other entry keeps its words and its blocks.

## Main definitions

* `MosVolca.ActsOn` — a change that acts on one file only.
* `MosVolca.Extends`, `MosVolca.Trims` — the changes that give blocks to a file and take them away.
* `MosVolca.Below` — the structures in a directory and in the directories below it.

## Main results

* `MosVolca.ActsOn.field`, `MosVolca.ActsOn.agrees` — the other entries stay as they are.
* `MosVolca.CacheInv.fileGetBlock_extends`, `MosVolca.CacheInv.fileTruncate_trims` — the functions
  that give blocks and take them away.
-/

namespace MosVolca

variable {c c' c1 : Blocks} {f g d : FilePtr} {b v k bno : ℕ} {p : WordPtr} {w r : Word}

/-! ## Changes of one file -/

/-- The place is one of the words of the file that say which blocks it has. -/
def MetaOf (c : Blocks) (f : FilePtr) (p : WordPtr) : Prop :=
  ∃ x : Field, x.Meta ∧ HasField c f x ∧ p = placeOf c f x

/-- **The change acts on `f` only.** Apart from the words of `f` that say which blocks it has, only
the bitmap and free blocks are written; only blocks of `f` are set free; and `f` gets only blocks
that were free. -/
structure ActsOn (f : FilePtr) (c c' : Blocks) : Prop where
  nblocks : nblocksOf c' = nblocksOf c
  word : ∀ p, Outside c p → ¬ IsFree c p.block → ¬ MetaOf c f p → wordAt c' p = wordAt c p
  freed : ∀ b, IsFree c' b → IsFree c b ∨ ∃ q, Holds c f q b
  taken : ∀ q b, Holds c' f q b → Holds c f q b ∨ IsFree c b

/-- The change acts on `f` only and sets nothing free. -/
structure Extends (f : FilePtr) (c c' : Blocks) : Prop extends ActsOn f c c' where
  unfreed : ∀ b, IsFree c' b → IsFree c b

/-- The change acts on `f` only and gives it nothing; free blocks are not written either. -/
structure Trims (f : FilePtr) (c c' : Blocks) : Prop where
  nblocks : nblocksOf c' = nblocksOf c
  word : ∀ p, Outside c p → ¬ MetaOf c f p → wordAt c' p = wordAt c p
  freed : ∀ b, IsFree c' b → IsFree c b ∨ ∃ q, Holds c f q b
  held : ∀ q b, Holds c' f q b → Holds c f q b

lemma outside_iff (hn : nblocksOf c' = nblocksOf c) : Outside c' p ↔ Outside c p := by
  unfold Outside firstData
  rw [hn]

lemma metaOf_size (c : Blocks) (f : FilePtr) : MetaOf c f f.size :=
  ⟨.head 32, ⟨by decide, by decide⟩, (by decide : 32 < 64), rfl⟩

/-- A word that belongs to `f` belonged to it before, or its block was free. -/
lemma ActsOn.metaOf (h : ActsOn f c c') (hm : MetaOf c' f p) : MetaOf c f p ∨ IsFree c p.block := by
  obtain ⟨x, hx, hfield, rfl⟩ := hm
  cases x with
  | head k => exact .inl ⟨.head k, hx, hfield, rfl⟩
  | far i =>
    obtain ⟨h10, hi, hne⟩ := hasField_far.mp hfield
    rcases h.taken _ _ (holds_indirect hne) with hold | hfree
    · have heq : wordAt c f.indirect = wordAt c' f.indirect := BitVec.eq_of_toNat_eq hold.2.2
      exact .inl ⟨.far i, trivial, ⟨h10, hi, heq ▸ hne⟩, by rw [placeOf_far, placeOf_far, heq]⟩
    · exact .inr hfree

namespace Trims

lemma refl (f : FilePtr) (c : Blocks) : Trims f c c :=
  ⟨rfl, fun _ _ _ => rfl, fun _ => .inl, fun _ _ => id⟩

lemma actsOn (h : Trims f c c') : ActsOn f c c' where
  nblocks := h.nblocks
  word := fun p ho _ => h.word p ho
  freed := h.freed
  taken := fun q b hq => .inl (h.held q b hq)

/-- A word that belongs to `f` belonged to it before. -/
lemma metaOf (h : Trims f c c') (hm : MetaOf c' f p) : MetaOf c f p := by
  obtain ⟨x, hx, hfield, rfl⟩ := hm
  cases x with
  | head k => exact ⟨.head k, hx, hfield, rfl⟩
  | far i =>
    obtain ⟨h10, hi, hne⟩ := hasField_far.mp hfield
    have hold := h.held _ _ (holds_indirect hne)
    have heq : wordAt c f.indirect = wordAt c' f.indirect := BitVec.eq_of_toNat_eq hold.2.2
    exact ⟨.far i, trivial, ⟨h10, hi, heq ▸ hne⟩, by rw [placeOf_far, placeOf_far, heq]⟩

lemma trans (h : Trims f c c1) (h' : Trims f c1 c') : Trims f c c' where
  nblocks := h'.nblocks.trans h.nblocks
  word := fun p ho hm => (h'.word p ((outside_iff h.nblocks).mpr ho) fun hm' => hm (h.metaOf hm')).trans
    (h.word p ho hm)
  freed := by
    intro b hb
    rcases h'.freed b hb with hb | ⟨q, hq⟩
    · exact h.freed b hb
    · exact .inr ⟨q, h.held q b hq⟩
  held := fun q b hq => h.held q b (h'.held q b hq)

end Trims

namespace Extends

lemma refl (f : FilePtr) (c : Blocks) : Extends f c c := ⟨(Trims.refl f c).actsOn, fun _ => id⟩

lemma trans (h : Extends f c c1) (h' : Extends f c1 c') : Extends f c c' where
  nblocks := h'.nblocks.trans h.nblocks
  word := by
    intro p ho hfree hm
    rw [h'.word p ((outside_iff h.nblocks).mpr ho) (fun hf => hfree (h.unfreed _ hf)) ?_,
      h.word p ho hfree hm]
    exact fun hm' => (h.metaOf hm').elim hm hfree
  freed := fun b hb => .inl (h.unfreed b (h'.unfreed b hb))
  taken := by
    intro q b hq
    rcases h'.taken q b hq with hq | hb
    · exact h.taken q b hq
    · exact .inr (h.unfreed b hb)
  unfreed := fun b hb => h.unfreed b (h'.unfreed b hb)

end Extends

/-! ## The other entries -/

/-- The words of an entry are not in a free block. -/
lemma Consistent.placeOf_used (h : Consistent c) (hg : Dirent c g) {x : Field}
    (hx : HasField c g x) : ¬ IsFree c (placeOf c g x).block := by
  cases x with
  | head k =>
    rcases h.block_entry hg with rfl | ⟨hu, -⟩
    · exact h.reserved 1 (by unfold firstData; omega)
    · exact hu.used
  | far i => exact (h.usable hg (holds_indirect (hasField_far.mp hx).2.2)).used

namespace ActsOn

/-- **The fields of the other entries stay**, and so do the name and `f_dir` of the file itself. -/
theorem field (h : ActsOn f c c') (hc : Consistent c) (hf : Dirent c f) (hg : Dirent c g)
    {x : Field} (hx : HasField c g x) (hne : g ≠ f ∨ ¬ x.Meta) :
    wordAt c' (placeOf c g x) = wordAt c (placeOf c g x) := by
  refine h.word _ (hc.outside_placeOf hg hx) (hc.placeOf_used hg hx) ?_
  rintro ⟨y, hy, hfy, he⟩
  obtain ⟨rfl, rfl⟩ := hc.place_inj hg hf hx hfy he
  exact hne.elim (fun h => h rfl) fun h => h hy

/-- The other entries hold what they held. -/
lemma agrees (h : ActsOn f c c') (hc : Consistent c) (hf : Dirent c f) (hg : Dirent c g)
    (hne : g ≠ f) : Agrees c c' g := fun _ _ hx => h.field hc hf hg hx (.inl hne)

/-- What another entry holds is not set free. -/
lemma used (h : ActsOn f c c') (hc : Consistent c) (hf : Dirent c f) (hg : Dirent c g)
    (hne : g ≠ f) {q : Slot} (hq : Holds c g q b) : ¬ IsFree c' b := by
  intro hb
  rcases h.freed b hb with hb | ⟨y, hy⟩
  · exact (hc.usable hg hq).used hb
  · exact hne (hc.once hg hf hq hy).1

end ActsOn

/-! ## Directories -/

/-- The structure is in a block of the directory `f`, or of a directory below it. -/
inductive Below (c : Blocks) (f : FilePtr) : FilePtr → Prop
  | child {b j : ℕ} (hb : DirBlock c f b) (hj : j < file2blk) : Below c f (FilePtr.entry b j)
  | deeper {d : FilePtr} {b j : ℕ} (hd : Below c f d) (hb : DirBlock c d b) (hj : j < file2blk) :
      Below c f (FilePtr.entry b j)

/-- An entry that is not below `f` stays an entry if the entries other than `f` hold what they
held. -/
lemma Dirent.keep (h : ∀ d, Dirent c d → d ≠ f → Agrees c c' d) (hg : Dirent c g)
    (hnot : ¬ Below c f g) : Dirent c' g := by
  induction hg with
  | root => exact .root
  | @child d b j hd hb hj ih =>
    by_cases hdf : d = f
    · exact absurd (.child (hdf ▸ hb) hj) hnot
    · exact .child (ih fun hbelow => hnot (.deeper hbelow hb hj)) ((h d hd hdf).dirBlock_iff.mpr hb) hj

/-! ## New blocks -/

variable {s s' s1 : BlockCache}

/-- A block is taken from the free ones: the bitmap and free blocks are written. -/
structure Allocs (c c' : Blocks) : Prop where
  nblocks : nblocksOf c' = nblocksOf c
  word : ∀ p, Outside c p → ¬ IsFree c p.block → wordAt c' p = wordAt c p
  unfreed : ∀ b, IsFree c' b → IsFree c b

/-- A new block for one file extends this file, and no other. -/
lemma Allocs.extends (h : Allocs c c') (hag : Agrees c c' f) : Extends f c c' where
  nblocks := h.nblocks
  word := fun p ho hfree _ => h.word p ho hfree
  freed := fun b hb => .inl (h.unfreed b hb)
  taken := fun _ _ hq => .inl (hag.holds_iff.mp hq)
  unfreed := h.unfreed

/-- A free block is taken: its bit is cleared, and its page may be filled with zeros. -/
lemma allocs_useBit (hv : IsFree c v) (hc : c' = useBit c v ∨ c' = TwoLevel.fill (useBit c v) v 0)
    (hge : firstData c ≤ v) : Allocs c c' := by
  have hbits := bits_block hv.1
  have hn : nblocksOf (useBit c v) = nblocksOf c := nblocksOf_putBits
  rcases hc with rfl | rfl
  · exact ⟨hn, fun p ho _ => wordAt_putBits hbits ho, fun b hb => (isFree_useBit.mp hb).1⟩
  · have hfill : v = 0 ∨ firstData (useBit c v) ≤ v := .inr (by rwa [firstData, hn])
    have hs := sameMap_fill hfill
    refine ⟨hs.nblocks.trans hn, fun p ho hfree => ?_, fun b hb => ?_⟩
    · have hne : p.block ≠ v := fun he => hfree (he ▸ hv)
      exact (TwoLevel.fill_of_ne hne).trans (wordAt_putBits hbits ho)
    · exact (isFree_useBit.mp (hs.isFree_iff.mp hb)).1

/-- A free block is taken and given back. -/
lemma allocs_freeBit (hv : IsFree c v) : Allocs c (freeBit (useBit c v) v) := by
  have hbits := bits_block hv.1
  have hn : nblocksOf (useBit c v) = nblocksOf c := nblocksOf_putBits
  have hlast : firstData (useBit c v) = firstData c := by rw [firstData, hn, firstData]
  refine ⟨nblocksOf_putBits.trans hn, fun p ho _ => ?_, fun b hb => ?_⟩
  · exact (wordAt_putBits (hlast ▸ hbits) ((outside_iff hn).mpr ho)).trans (wordAt_putBits hbits ho)
  · rcases isFree_freeBit hb with hb | rfl
    · exact (isFree_useBit.mp hb).1
    · exact hv

namespace CacheInv

/-- The contents after `free_block`. -/
lemma freeBlock_content (hs : CacheInv s) (hlt : v < nblocksOf s.content) (h0 : v ≠ 0) :
    (MosVolca.freeBlock s v).content = freeBit s.content v := by
  have hbits := bits_block hlt
  unfold MosVolca.freeBlock
  rw [if_neg (by rw [hs.nblocks]; omega), hs.bits hbits]
  exact content_store (hs.mapped_bits hbits)

/-- `alloc_block` takes a free block. -/
lemma allocBlock_allocs (hs : CacheInv s) {x : Except Word ℕ}
    (h : MosVolca.allocBlock s = .ok (x, s')) :
    Allocs s.content s'.content ∧ ∀ b, x = .ok b → IsFree s.content b := by
  unfold MosVolca.allocBlock at h
  obtain ⟨⟨x1, s2⟩, hnum, h1⟩ := bind_eq_ok.mp h
  rcases allocBlockNum_cases hnum with ⟨r, rfl, rfl⟩ | ⟨b, rfl, hff, -, hload⟩
  · obtain ⟨rfl, rfl⟩ := pure_pair_inj h1
    exact ⟨⟨rfl, fun _ _ _ => rfl, fun _ => id⟩, fun b hb => absurd hb (by simp)⟩
  · have hfree := hs.isFree_firstFree hff
    have hbits := bits_block hfree.1
    have hge : firstData s.content ≤ b := by
      by_contra hlt
      exact hs.consistent.reserved b (by omega) hfree
    have hcon : s2.content = useBit s.content b := by
      rw [hload.content, hs.bits hbits]
      exact content_store (hs.mapped_bits hbits)
    obtain ⟨hs2, -⟩ := hs.allocBlockNum hnum
    obtain ⟨⟨r, s3⟩, hpage, h2⟩ := bind_eq_ok.mp h1
    simp only at h2
    rcases mapBlock_cases hpage with ⟨rfl, -, rfl⟩ | ⟨rfl, hf⟩ | ⟨rfl, hl⟩
    · simp only [ne_eq, not_true_eq_false, if_false, pure_eq_ok, Except.ok.injEq,
        Prod.mk.injEq] at h2
      obtain ⟨rfl, rfl⟩ := h2
      exact ⟨allocs_useBit hfree (.inl hcon) hge, fun b' hb' => Except.ok.inj hb' ▸ hfree⟩
    · simp only [ne_eq, not_true_eq_false, if_false, pure_eq_ok, Except.ok.injEq,
        Prod.mk.injEq] at h2
      obtain ⟨rfl, rfl⟩ := h2
      exact ⟨allocs_useBit hfree (.inr (by rw [hf.content, hcon])) hge,
        fun b' hb' => Except.ok.inj hb' ▸ hfree⟩
    · rw [if_pos eNoMem_ne_zero] at h2
      obtain ⟨rfl, rfl⟩ := pure_pair_inj h2
      have hc3 : s3.content = useBit s.content b := hl.content.trans hcon
      have hlt : b < nblocksOf s3.content := by
        rw [hc3, show nblocksOf (useBit s.content b) = nblocksOf s.content from nblocksOf_putBits]
        exact hfree.1
      have h0 : b ≠ 0 := by
        unfold firstData at hge
        omega
      rw [(hl.inv hs2).freeBlock_content hlt h0, hc3]
      exact ⟨allocs_freeBit hfree, fun b' hb' => absurd hb' (by simp)⟩

/-- A word of `f` gets the number of a block that was free before. -/
lemma give_extends {x : Field} {q : Slot} (hc : Consistent c1) (hf : Dirent c1 f)
    (halloc : Allocs c c1) (hag : Agrees c c1 f) (hx : x.Meta) (hfield : HasField c f x)
    (hv : IsFree c v)
    (hheld : ∀ y b, Holds (putWord c1 (placeOf c1 f x) w) f y b → Holds c1 f y b ∨ y = q ∧ b = v) :
    Extends f c (putWord c1 (placeOf c1 f x) w) := by
  have hfield1 : HasField c1 f x := (hag.hasField_iff x).mpr hfield
  have hs := sameMap_putWord (w := w) (hc.outside_placeOf hf hfield1)
  have hunfreed : ∀ b, IsFree (putWord c1 (placeOf c1 f x) w) b → IsFree c b :=
    fun b hb => halloc.unfreed b (hs.isFree_iff.mp hb)
  refine ⟨⟨hs.nblocks.trans halloc.nblocks, fun p ho hfree hm => ?_, fun b hb => .inl (hunfreed b hb),
    fun y b hy => ?_⟩, hunfreed⟩
  · rw [wordAt_putWord_of_ne, halloc.word p ho hfree]
    rintro rfl
    exact hm ⟨x, hx, hfield, hag.placeOf_eq x⟩
  · rcases hheld y b hy with hy | ⟨-, rfl⟩
    · exact .inl (hag.holds_iff.mp hy)
    · exact .inr hv

/-- Step 2 of `file_block_walk`. -/
lemma needIndirect_extends (hs : CacheInv s) (hf : Dirent s.content f)
    (hm : s.mapped f.block = true) {alloc : Bool} {x : Except Word Unit}
    (h : MosVolca.needIndirect s f alloc = .ok (x, s'))
    (hclean : alloc = true → s.load f.indirect = 0 → AllocClean s) :
    Extends f s.content s'.content := by
  rcases needIndirect_cases h with ⟨-, -, rfl⟩ | ⟨-, -, -, rfl⟩ | ⟨h0, ha, hcase⟩
  · exact Extends.refl f _
  · exact Extends.refl f _
  · rcases hcase with ⟨r, halloc, -⟩ | ⟨b, s1, halloc, -, rfl⟩
    · obtain ⟨-, hsame, -⟩ := hs.allocBlock halloc
      exact (hs.allocBlock_allocs halloc).1.extends (hsame.agrees f hf)
    · obtain ⟨hs1, hsame, hfresh⟩ := hs.allocBlock halloc
      obtain ⟨hallocs, hfree⟩ := hs.allocBlock_allocs halloc
      obtain ⟨hfresh, hblank⟩ := hfresh b rfl
      have hblank := hblank (hclean ha h0)
      have hf1 := hsame.dirent_iff.mpr hf
      have hb : (BitVec.ofNat 32 b).toNat = b := by
        have := hfresh.usable.lt
        unfold nblocksOf at this
        rw [BitVec.toNat_ofNat, Nat.mod_eq_of_lt (by omega)]
      have hblock : (BitVec.ofNat 32 b).toNat ≠ f.block :=
        (hf1.ne_block (x := .head 44) Consistent.hasField_indirect (hb.symm ▸ hfresh.usable.ge)
          (hb.symm ▸ hfresh.unheld)).symm
      rw [content_store (p := f.indirect) (hsame.mapped _ hm)]
      refine give_extends (x := .head 44) (q := .indirect) hs1.consistent hf1 hallocs
        (hsame.agrees f hf) ⟨by decide, by decide⟩ Consistent.hasField_indirect (hfree b rfl)
        fun y v hy => ?_
      rcases hs1.consistent.holds_putIndirect hf1 hf1 hblock (fun _ => hb.symm ▸ hblank) hy with
        hy | ⟨-, rfl, -, rfl⟩
      · exact .inl hy
      · exact .inr ⟨rfl, hb⟩

/-- `file_block_walk` gives the file its indirect block. -/
lemma fileBlockWalk_extends (hs : CacheInv s) (hf : Dirent s.content f)
    (hm : s.mapped f.block = true) {alloc : Bool} {x : Except Word WordPtr}
    (h : MosVolca.fileBlockWalk s f bno alloc = .ok (x, s'))
    (hclean : alloc = true → WalkClean s f bno) : Extends f s.content s'.content := by
  rcases fileBlockWalk_cases h with ⟨-, -, rfl⟩ | ⟨-, -, rfl⟩ |
    ⟨hd, hn, ⟨r, hneed, -⟩ | ⟨isnew, s1, hneed, hread, -⟩⟩
  · exact Extends.refl f _
  · exact Extends.refl f _
  · exact hs.needIndirect_extends hf hm hneed fun ha => hclean ha hd hn
  · rw [(readBlock_loads hread).1.content]
    exact hs.needIndirect_extends hf hm hneed fun ha => hclean ha hd hn

/-- `file_map_block` gives the file a block. -/
lemma fileMapBlock_extends (hs : CacheInv s) (hf : Dirent s.content f)
    (hm : s.mapped f.block = true) {x : Except Word ℕ}
    (h : MosVolca.fileMapBlock s f bno true = .ok (x, s')) (hclean : MapClean s f bno) :
    Extends f s.content s'.content := by
  rcases fileMapBlock_cases h with ⟨r, hwalk, -⟩ | ⟨ptr, s1, hwalk, hcase⟩
  · exact hs.fileBlockWalk_extends hf hm hwalk fun _ => hclean.1
  · obtain ⟨hs1, hg, hptr⟩ := hs.fileBlockWalk hf hm hwalk fun _ => hclean.1
    have hext := hs.fileBlockWalk_extends hf hm hwalk fun _ => hclean.1
    obtain ⟨hfield, rfl, hmap⟩ := hptr ptr rfl
    have hf1 := hg.dirent f hf
    rcases hcase with ⟨-, -, rfl⟩ | ⟨-, ha, -⟩ | ⟨-, -, ⟨r, halloc, -⟩ | ⟨b, s2, halloc, -, rfl⟩⟩
    · exact hext
    · exact absurd ha.symm Bool.false_ne_true
    · obtain ⟨-, hsame, -⟩ := hs1.allocBlock halloc
      exact hext.trans ((hs1.allocBlock_allocs halloc).1.extends (hsame.agrees f hf1))
    · obtain ⟨hs2, hsame, hfresh⟩ := hs1.allocBlock halloc
      obtain ⟨hallocs, hfree⟩ := hs1.allocBlock_allocs halloc
      have hag := hsame.agrees f hf1
      have hf2 := hsame.dirent_iff.mpr hf1
      have hb : (BitVec.ofNat 32 b).toNat = b := by
        have := (hfresh b rfl).1.usable.lt
        unfold nblocksOf at this
        rw [BitVec.toNat_ofNat, Nat.mod_eq_of_lt (by omega)]
      rw [content_store (hsame.mapped _ hmap), ← hag.placeOf_eq]
      refine hext.trans (give_extends (q := .data bno) hs2.consistent hf2 hallocs hag
        (Slot.meta_field hfield) hfield (hfree b rfl) fun y v hy => ?_)
      rw [hs2.consistent.holds_putData hf2 hf2 ((hag.hasField_iff _).mpr hfield)] at hy
      split_ifs at hy with hy'
      · exact .inr ⟨hy'.2, hy.2.symm.trans hb⟩
      · exact .inl hy

/-- **`file_get_block`** gives the file a block. -/
theorem fileGetBlock_extends (hs : CacheInv s) (hf : Dirent s.content f)
    (hm : s.mapped f.block = true) {x : Except Word ℕ}
    (h : MosVolca.fileGetBlock s f bno = .ok (x, s')) (hclean : MapClean s f bno) :
    Extends f s.content s'.content := by
  unfold MosVolca.fileGetBlock at h
  obtain ⟨⟨y, s1⟩, hmap, h1⟩ := bind_eq_ok.mp h
  have hext := hs.fileMapBlock_extends hf hm hmap hclean
  cases y with
  | error r =>
    obtain ⟨-, rfl⟩ := pure_pair_inj h1
    exact hext
  | ok b =>
    obtain ⟨⟨isnew, s2⟩, hread, h2⟩ := bind_eq_ok.mp h1
    obtain ⟨-, rfl⟩ := pure_pair_inj h2
    rw [(readBlock_loads hread).1.content]
    exact hext

end CacheInv

/-! ## Blocks that are taken away -/

namespace CacheInv

/-- The contents after a block pointer of `f` is cleared and its block is set free. -/
lemma clearSlot_content (hs : CacheInv s) (hf : Dirent s.content f) {q : Slot}
    (hfield : HasField s.content f q.field)
    (hm : s.mapped (placeOf s.content f q.field).block = true)
    (hne : wordAt s.content (placeOf s.content f q.field) ≠ 0)
    (hc : Consistent (putWord s.content (placeOf s.content f q.field) 0)) :
    ((MosVolca.freeBlock s (wordAt s.content (placeOf s.content f q.field)).toNat).store
        (placeOf s.content f q.field) 0).content =
      freeBit (putWord s.content (placeOf s.content f q.field) 0)
        (wordAt s.content (placeOf s.content f q.field)).toNat := by
  have hu := hs.consistent.usable hf (p := q) ⟨hfield, hne, rfl⟩
  have hout := hs.consistent.outside_placeOf hf hfield
  have hmap := sameMap_putWord (w := 0) hout
  have hcon := content_store (w := 0) hm
  have hbits := bits_block hu.lt
  have hge := hu.ge
  rw [freeBlock_store]
  · have hs1 := hs.store hf hfield hm hc
    rw [hs1.freeBlock_content (by rw [hcon, hmap.nblocks]; exact hu.lt)
      (by unfold firstData at hge; omega), hcon]
  · intro he
    rw [he] at hout
    rcases hout with ⟨-, h2⟩ | h1
    · exact absurd h2 (by decide)
    · unfold firstData at h1
      simp only at h1
      omega
  · intro he
    rw [he] at hout
    rcases hout with ⟨h1, -⟩ | h1 <;> simp only [BlockCache.bitsPtr] at h1 <;> omega

/-- The words outside the bitmap are those after the pointer is cleared. -/
lemma clearSlot_word (hs : CacheInv s) (hf : Dirent s.content f) {q : Slot}
    (hfield : HasField s.content f q.field)
    (hne : wordAt s.content (placeOf s.content f q.field) ≠ 0) (ho : Outside s.content p) :
    wordAt (freeBit (putWord s.content (placeOf s.content f q.field) 0)
        (wordAt s.content (placeOf s.content f q.field)).toNat) p =
      wordAt (putWord s.content (placeOf s.content f q.field) 0) p := by
  have hmap := sameMap_putWord (w := 0) (hs.consistent.outside_placeOf hf hfield)
  have hbits := bits_block (hs.consistent.usable hf (p := q) ⟨hfield, hne, rfl⟩).lt
  have hlast : firstData (putWord s.content (placeOf s.content f q.field) 0) =
      firstData s.content := by rw [firstData, hmap.nblocks, firstData]
  exact wordAt_putBits (hlast ▸ hbits) ((outside_iff hmap.nblocks).mpr ho)

/-- A block pointer of `f` is cleared and its block is set free. -/
lemma clearSlot_trims (hs : CacheInv s) (hf : Dirent s.content f) {q : Slot}
    (hfield : HasField s.content f q.field)
    (hm : s.mapped (placeOf s.content f q.field).block = true)
    (hne : wordAt s.content (placeOf s.content f q.field) ≠ 0)
    (hc : Consistent (putWord s.content (placeOf s.content f q.field) 0))
    (hsub : ∀ y b, Holds (putWord s.content (placeOf s.content f q.field) 0) f y b →
      Holds s.content f y b) :
    Trims f s.content
      ((MosVolca.freeBlock s (wordAt s.content (placeOf s.content f q.field)).toNat).store
        (placeOf s.content f q.field) 0).content := by
  rw [hs.clearSlot_content hf hfield hm hne hc]
  have hold : Holds s.content f q (wordAt s.content (placeOf s.content f q.field)).toNat :=
    ⟨hfield, hne, rfl⟩
  have hmap := sameMap_putWord (w := 0) (hs.consistent.outside_placeOf hf hfield)
  have hag := fun p ho => hs.clearSlot_word (p := p) hf hfield hne ho
  have hself : Dirent (putWord s.content (placeOf s.content f q.field) 0) f :=
    Dirent.keep_self (fun d b hd hdf hb =>
      (hs.consistent.agrees_of_field hd hf hfield (.inl hdf)).dirBlock_iff.mpr hb) hf
  refine ⟨nblocksOf_putBits.trans hmap.nblocks, fun p ho hmeta => ?_, fun b hb => ?_,
    fun y b hy => ?_⟩
  · rw [hag p ho, wordAt_putWord_of_ne]
    rintro rfl
    exact hmeta ⟨_, Slot.meta_field hfield, hfield, rfl⟩
  · rcases isFree_freeBit hb with hb | rfl
    · exact .inl (hmap.isFree_iff.mp hb)
    · exact .inr ⟨q, hold⟩
  · refine hsub y b ((hc.agrees_of_map hself fun p ho => ?_).holds_iff.mp hy)
    exact hag p ((outside_iff hmap.nblocks).mp ho)

/-- `file_clear_block` takes a block away. -/
lemma fileClearBlock_trims (hs : CacheInv s) (hf : Dirent s.content f)
    (hm : s.mapped f.block = true) (h : MosVolca.fileClearBlock s f bno = .ok (r, s')) :
    Trims f s.content s'.content := by
  unfold MosVolca.fileClearBlock at h
  obtain ⟨⟨x, s1⟩, hwalk, h1⟩ := bind_eq_ok.mp h
  have hload := fileBlockWalk_loads hwalk
  cases x with
  | error r =>
    replace h1 := pure_pair_inj h1
    rw [← h1.2, hload.content]
    exact Trims.refl f _
  | ok ptr =>
    obtain ⟨hs1, -, hptr⟩ := hs.fileBlockWalk hf hm hwalk (fun ha => absurd ha Bool.false_ne_true)
    obtain ⟨hfield, rfl, hmap⟩ := hptr ptr rfl
    have hf1 : Dirent s1.content f := hload.content ▸ hf
    simp only at h1
    split_ifs at h1 with hne
    · obtain ⟨-, rfl⟩ := pure_pair_inj h1
      rw [load_eq hmap] at hne ⊢
      rw [← hload.content]
      refine hs1.clearSlot_trims hf1 hfield hmap hne (hs1.consistent.clearData hf1 hfield)
        fun y b hy => ?_
      rw [hs1.consistent.holds_putData hf1 hf1 hfield] at hy
      split_ifs at hy with hc
      · exact absurd rfl hy.1
      · exact hy
    · replace h1 := pure_pair_inj h1
      rw [← h1.2, hload.content]
      exact Trims.refl f _

/-- The indirect block is set free. -/
lemma clearIndirect_trims (hs : CacheInv s) (hf : Dirent s.content f)
    (hm : s.mapped f.block = true) (hne : s.load f.indirect ≠ 0) : Trims f s.content
      ((MosVolca.freeBlock s (s.load f.indirect).toNat).store f.indirect 0).content := by
  rw [load_eq (p := f.indirect) hm] at hne ⊢
  have hcd := hs.consistent
  have hblank : (0 : Word) ≠ 0 → Blank s.content (0 : Word).toNat := fun h => absurd rfl h
  refine hs.clearSlot_trims (q := .indirect) hf Consistent.hasField_indirect hm hne
    (hcd.clearIndirect hf) fun y b hy => ?_
  have hblock : (0 : Word).toNat ≠ f.block := hcd.zero_ne_block hf
  rcases hcd.holds_putIndirect hf hf hblock hblank hy with hold | ⟨-, -, h0, -⟩
  · exact hold
  · exact absurd rfl h0

/-- The size of a file is written. -/
lemma storeSize_trims (hs : CacheInv s) (hf : Dirent s.content f) (hm : s.mapped f.block = true) :
    Trims f s.content (s.store f.size w).content := by
  have hfield : HasField s.content f (.head 32) := (by decide : 32 < 64)
  have hmap := sameMap_putWord (w := w) (hs.consistent.outside_placeOf hf hfield)
  rw [content_store (p := f.size) hm]
  refine ⟨hmap.nblocks, fun p _ hmeta => wordAt_putWord_of_ne ?_,
    fun b hb => .inl (hmap.isFree_iff.mp hb), fun q b hq => ?_⟩
  · rintro rfl
    exact hmeta (metaOf_size _ f)
  · exact (hs.consistent.holds_putHead (k := 32) hf hf (by decide)).mp hq

/-- **`file_truncate`** takes blocks away. -/
theorem fileTruncate_trims (hs : CacheInv s) (hf : Dirent s.content f)
    (hm : s.mapped f.block = true) (h : MosVolca.fileTruncate s f w = .ok s') :
    Trims f s.content s'.content := by
  unfold MosVolca.fileTruncate at h
  obtain ⟨s1, hloop, h1⟩ := bind_eq_ok.mp h
  obtain ⟨hs1, ht1⟩ : Shrinks f s s1 ∧ Trims f s.content s1.content := by
    refine foldlM_invariant (P := fun t => Shrinks f s t ∧ Trims f s.content t.content)
      (fun bno _ t t' ht hstep => ?_) ⟨(Loads.refl s).shrinks hs hf, Trims.refl f _⟩ hloop
    obtain ⟨⟨r, t1⟩, hclear, hr⟩ := bind_eq_ok.mp hstep
    obtain rfl := Except.ok.inj hr
    obtain ⟨ht, htrim⟩ := ht
    exact ⟨ht.trans (ht.inv.fileClearBlock ht.self (ht.mapped _ hm) hclear),
      htrim.trans (ht.inv.fileClearBlock_trims ht.self (ht.mapped _ hm) hclear)⟩
  rw [pure_eq_ok, Except.ok.injEq] at h1
  rw [← h1]
  by_cases hind : (if w = 0 then 0 else w.toNat / 4096 + 1) ≤ ndirect ∧ s1.load f.indirect ≠ 0
  · rw [if_pos hind]
    have hs2 := hs1.inv.clearIndirect hs1.self (hs1.mapped _ hm) hind.2
    exact (ht1.trans (hs1.inv.clearIndirect_trims hs1.self (hs1.mapped _ hm) hind.2)).trans
      (hs2.inv.storeSize_trims hs2.self (hs2.mapped _ (hs1.mapped _ hm)))
  · rw [if_neg hind]
    exact ht1.trans (hs1.inv.storeSize_trims hs1.self (hs1.mapped _ hm))

end CacheInv

/-! ## Sizes -/

/-- The directory that `f_dir` points to is in the cache, if it points to one. -/
def DirCached (s : BlockCache) (f : FilePtr) : Prop :=
  s.load f.dir ≠ 0 → ∀ d, FilePtr.ofAddr (s.load f.dir) = some d → s.mapped d.block = true

/-- `file_flush` of a directory in the cache only reads and writes back. -/
lemma fileFlushDir_loads (hd : DirCached s f) (h : fileFlushDir s f = .ok s') : Loads s s' := by
  unfold fileFlushDir at h
  split_ifs at h with h0
  · exact Except.ok.inj h ▸ Loads.refl s
  · split at h
    · simp at h
    · rename_i d hdir
      obtain ⟨s1, htouch, h1⟩ := bind_eq_ok.mp h
      rcases touchBlock_spec htouch with ⟨-, rfl⟩ | ⟨hno, -⟩
      · exact fileFlush_loads h1
      · exact absurd (hno.symm.trans (hd h0 d hdir)) Bool.false_ne_true

/-- `file_close` of a file whose directory is in the cache only reads and writes back. -/
lemma fileClose_loads (hd : DirCached s f) (hm : s.mapped f.block = true)
    (h : fileClose s f = .ok s') : Loads s s' := by
  unfold fileClose at h
  obtain ⟨s1, hflush, h1⟩ := bind_eq_ok.mp h
  obtain ⟨s2, hdir, h2⟩ := bind_eq_ok.mp h1
  have hl := fileFlush_loads hflush
  have hd1 : DirCached s1 f := by
    have hload : s1.load f.dir = s.load f.dir := by
      rw [load_eq (p := f.dir) (hl.mapped _ hm), load_eq (p := f.dir) hm, hl.content]
    intro h0 d hfd
    rw [hload] at h0 hfd
    exact hl.mapped _ (hd h0 d hfd)
  exact (hl.trans (fileFlushDir_loads hd1 hdir)).trans (writeBlock_loads h2).2.2

/-- `f_dir` of an entry stays if blocks are taken away. -/
lemma Trims.dirCached (h : Trims f s.content s'.content) (hs : CacheInv s)
    (hf : Dirent s.content f) (hm : s.mapped f.block = true)
    (hmap : ∀ b, s.mapped b = true → s'.mapped b = true) (hd : DirCached s f) : DirCached s' f := by
  have hload : s'.load f.dir = s.load f.dir := by
    rw [load_eq (p := f.dir) (hmap _ hm), load_eq (p := f.dir) hm]
    exact h.actsOn.field hs.consistent hf hf (x := .head 45) (by decide : 45 < 64)
      (.inr fun hx => absurd hx.2 (by decide))
  intro h0 d hfd
  rw [hload] at h0 hfd
  exact hmap _ (hd h0 d hfd)

/-- The entries stay entries if the size of `f` gets bigger. -/
lemma Dirent.of_size {n : Word} (hc : Consistent c) (hf : Dirent c f) (hg : Dirent c g)
    (hle : (wordAt c f.size).toNat ≤ n.toNat) : Dirent (putWord c f.size n) g := by
  have hfield : HasField c f (.head 32) := (by decide : 32 < 64)
  refine hg.mono fun d b hd hb => ?_
  by_cases hdf : d = f
  · subst hdf
    obtain ⟨ht, i, hi, hold⟩ := hb
    refine ⟨?_, i, ?_, (hc.holds_putHead (k := 32) hd hd (by decide)).mpr hold⟩
    · rw [← ht]
      refine wordAt_putWord_of_ne fun he => ?_
      exact absurd (hc.place_inj hd hd (x := .head 33) (by decide : 33 < 64) hfield he).2 (by decide)
    · rw [sizeBlocksOf, wordAt_putWord_self]
      exact hi.trans_le (Nat.div_le_div_right hle)
  · exact (hc.agrees_of_field hd hf hfield (.inl hdf)).dirBlock_iff.mpr hb

/-- **`file_set_size`** takes blocks away and writes the size. The entries stay entries, apart from
those below a directory that gets smaller. -/
theorem CacheInv.fileSetSize_trims (hs : CacheInv s) (hf : InCache s f)
    (hdir : DirCached s f) (h : MosVolca.fileSetSize s f w = .ok (r, s')) :
    Trims f s.content s'.content ∧ ∀ g, Dirent s.content g →
      (w.toNat < (wordAt s.content f.size).toNat → ¬ Below s.content f g) → Dirent s'.content g := by
  have hload : s.load f.size = wordAt s.content f.size := load_eq (p := f.size) hf.mapped
  have hfinish : ∀ {s1 : BlockCache}, Trims f s.content (s1.store f.size w).content →
      (∀ b, s.mapped b = true → s1.mapped b = true) →
      (do let s ← MosVolca.fileFlushDir (s1.store f.size w) f; pure (0, s)) = .ok (r, s') →
      s'.content = (s1.store f.size w).content := by
    intro s1 ht hm1 h1
    obtain ⟨s2, hflush, h2⟩ := bind_eq_ok.mp h1
    replace h2 := pure_pair_inj h2
    rw [← h2.2]
    have hd1 : DirCached (s1.store f.size w) f := ht.dirCached hs hf.dirent hf.mapped hm1 hdir
    exact (fileFlushDir_loads hd1 hflush).content
  unfold MosVolca.fileSetSize at h
  simp only at h
  split_ifs at h with hlt
  · have hlt : w.toNat < (s.load f.size).toNat := hlt
    obtain ⟨s1, htrunc, h1⟩ := bind_eq_ok.mp h
    obtain ⟨hs1, hd1, hw, hm1⟩ := hs.fileTruncate hf.dirent hf.mapped hlt.le htrunc
    have ht := (hs.fileTruncate_trims hf.dirent hf.mapped htrunc).trans
      (hs1.storeSize_trims (w := w) hd1 (hm1 _ hf.mapped))
    rw [hfinish ht hm1 h1]
    refine ⟨ht, fun g hg hnot => ?_⟩
    exact hg.keep (fun d hd hdf => ht.actsOn.agrees hs.consistent hf.dirent hd hdf)
      (hnot (hload ▸ hlt))
  · have hle : (s.load f.size).toNat ≤ w.toNat := Nat.le_of_not_lt hlt
    have ht : Trims f s.content (s.store f.size w).content := hs.storeSize_trims hf.dirent hf.mapped
    rw [hfinish ht (fun _ hb => hb) h]
    refine ⟨ht, fun g hg _ => ?_⟩
    rw [content_store (p := f.size) hf.mapped]
    exact Dirent.of_size hs.consistent hf.dirent hg (hload ▸ hle)

/-! ## Dirty pages -/

/-- No page gets `PTE_DIRTY`. -/
def MarksNone (s s' : BlockCache) : Prop := ∀ b, s'.dirty b = true → s.dirty b = true

lemma MarksNone.trans (h : MarksNone s s1) (h' : MarksNone s1 s') : MarksNone s s' :=
  fun b hb => h b (h' b hb)

lemma allocPage_marksNone (s : BlockCache) (b : ℕ) : MarksNone s (allocPage s b).2 := by
  intro x hx
  unfold allocPage at hx
  simp only at hx
  split_ifs at hx
  · simp only [Function.update_apply] at hx
    split_ifs at hx
    exact hx
  · exact hx

lemma touchBlock_marksNone (h : touchBlock s b = .ok s') : MarksNone s s' := by
  have hpage := allocPage_marksNone s b
  unfold touchBlock at h
  simp only at h
  split_ifs at h <;> rw [← Except.ok.inj h]
  · exact fun _ => id
  · exact hpage

/-- `read_block` marks no page. -/
lemma readBlock_marksNone {isnew : Bool} (h : readBlock s b = .ok (isnew, s')) : MarksNone s s' := by
  unfold readBlock at h
  split_ifs at h
  obtain ⟨va, -, h1⟩ := bind_eq_ok.mp h
  split_ifs at h1
  · replace h1 := pure_pair_inj h1
    rw [← h1.2]
    exact fun _ => id
  · have hpage := allocPage_marksNone s va
    rcases hp : allocPage s va with ⟨r, s1⟩
    rw [hp] at h1 hpage
    obtain ⟨s2, htouch, h2⟩ := bind_eq_ok.mp h1
    replace h2 := pure_pair_inj h2
    rw [← h2.2]
    have htouched := touchBlock_marksNone htouch
    exact fun x hx => hpage x (htouched x hx)

lemma writeBlock_marksNone (h : writeBlock s b = .ok s') : MarksNone s s' := by
  unfold writeBlock at h
  obtain ⟨m, -, h1⟩ := bind_eq_ok.mp h
  split_ifs at h1
  rw [← Except.ok.inj h1]
  exact fun _ => id

lemma freeBlock_marksNone (s : BlockCache) (b : ℕ) : MarksNone s (freeBlock s b) := by
  intro x hx
  unfold freeBlock at hx
  split_ifs at hx
  · exact hx
  · exact hx

/-- `alloc_block` marks no page. -/
lemma allocBlock_marksNone {x : Except Word ℕ} (h : allocBlock s = .ok (x, s')) :
    MarksNone s s' := by
  unfold allocBlock allocBlockNum at h
  obtain ⟨⟨y, s1⟩, hnum, h1⟩ := bind_eq_ok.mp h
  have hs1 : MarksNone s s1 := by
    split at hnum
    · obtain ⟨s2, hw, h2⟩ := bind_eq_ok.mp hnum
      replace h2 := pure_pair_inj h2
      rw [← h2.2]
      exact fun x hx => writeBlock_marksNone hw x hx
    · replace hnum := pure_pair_inj hnum
      rw [← hnum.2]
      exact fun _ => id
  cases y with
  | error r =>
    replace h1 := pure_pair_inj h1
    exact h1.2 ▸ hs1
  | ok bno =>
    obtain ⟨⟨r, s3⟩, hmap, h3⟩ := bind_eq_ok.mp h1
    have hs3 : MarksNone s1 s3 := by
      unfold mapBlock at hmap
      obtain ⟨m, -, h4⟩ := bind_eq_ok.mp hmap
      split_ifs at h4
      · replace h4 := pure_pair_inj h4
        rw [← h4.2]
        exact fun _ => id
      · have hpage := allocPage_marksNone s1 bno
        rwa [Except.ok.inj h4] at hpage
    simp only at h3
    split_ifs at h3 <;> simp only [pure_eq_ok, Except.ok.injEq, Prod.mk.injEq] at h3 <;> rw [← h3.2]
    · exact (hs1.trans hs3).trans (freeBlock_marksNone s3 bno)
    · exact hs1.trans hs3

/-- `file_block_walk` marks no page. -/
lemma fileBlockWalk_marksNone {alloc : Bool} {x : Except Word WordPtr}
    (h : fileBlockWalk s f bno alloc = .ok (x, s')) : MarksNone s s' := by
  have hneed : ∀ {y s1}, needIndirect s f alloc = .ok (y, s1) → MarksNone s s1 := by
    intro y s1 hn
    rcases needIndirect_cases hn with ⟨-, -, rfl⟩ | ⟨-, -, -, rfl⟩ |
      ⟨-, -, ⟨r, halloc, -⟩ | ⟨b, s2, halloc, -, rfl⟩⟩
    · exact fun _ => id
    · exact fun _ => id
    · exact allocBlock_marksNone halloc
    · exact fun x hx => allocBlock_marksNone halloc x hx
  rcases fileBlockWalk_cases h with ⟨-, -, rfl⟩ | ⟨-, -, rfl⟩ |
    ⟨-, -, ⟨r, hn, -⟩ | ⟨isnew, s1, hn, hread, -⟩⟩
  · exact fun _ => id
  · exact fun _ => id
  · exact hneed hn
  · exact (hneed hn).trans (readBlock_marksNone hread)

lemma fileMapBlock_marksNone {alloc : Bool} {x : Except Word ℕ}
    (h : fileMapBlock s f bno alloc = .ok (x, s')) : MarksNone s s' := by
  rcases fileMapBlock_cases h with ⟨r, hw, -⟩ | ⟨ptr, s1, hw, ⟨-, -, rfl⟩ | ⟨-, -, -, rfl⟩ |
    ⟨-, -, ⟨r, halloc, -⟩ | ⟨b, s2, halloc, -, rfl⟩⟩⟩
  · exact fileBlockWalk_marksNone hw
  · exact fileBlockWalk_marksNone hw
  · exact fileBlockWalk_marksNone hw
  · exact (fileBlockWalk_marksNone hw).trans (allocBlock_marksNone halloc)
  · exact (fileBlockWalk_marksNone hw).trans fun x hx => allocBlock_marksNone halloc x hx

/-- `file_get_block` marks no page. -/
lemma fileGetBlock_marksNone {x : Except Word ℕ} (h : fileGetBlock s f bno = .ok (x, s')) :
    MarksNone s s' := by
  unfold fileGetBlock at h
  obtain ⟨⟨y, s1⟩, hmap, h1⟩ := bind_eq_ok.mp h
  have hs1 := fileMapBlock_marksNone hmap
  cases y with
  | error r =>
    replace h1 := pure_pair_inj h1
    exact h1.2 ▸ hs1
  | ok b =>
    obtain ⟨⟨isnew, s2⟩, hread, h2⟩ := bind_eq_ok.mp h1
    replace h2 := pure_pair_inj h2
    exact h2.2 ▸ hs1.trans (readBlock_marksNone hread)

lemma foldlM_marksNone {α : Type} {step : BlockCache → α → Kernel BlockCache} {l : List α}
    (hstep : ∀ a s s', step s a = .ok s' → MarksNone s s') (h : l.foldlM step s = .ok s') :
    MarksNone s s' :=
  foldlM_invariant (P := fun t => MarksNone s t) (fun a _ t t' ht hs => ht.trans (hstep a t t' hs))
    (fun _ => id) h

lemma fileFlush_marksNone (h : fileFlush s f = .ok s') : MarksNone s s' := by
  refine foldlM_marksNone (fun bno s s' hs => ?_) h
  unfold fileFlushBlock at hs
  obtain ⟨⟨x, s1⟩, hmap, h1⟩ := bind_eq_ok.mp hs
  have hs1 := fileMapBlock_marksNone hmap
  cases x with
  | error r => exact Except.ok.inj h1 ▸ hs1
  | ok diskno =>
    obtain ⟨m, -, h2⟩ := bind_eq_ok.mp h1
    split_ifs at h2
    · exact hs1.trans (writeBlock_marksNone h2)
    · exact Except.ok.inj h2 ▸ hs1

lemma fileFlushDir_marksNone (h : fileFlushDir s f = .ok s') : MarksNone s s' := by
  unfold fileFlushDir at h
  split_ifs at h
  · exact Except.ok.inj h ▸ fun _ => id
  · split at h
    · simp at h
    · obtain ⟨s1, htouch, h1⟩ := bind_eq_ok.mp h
      exact (touchBlock_marksNone htouch).trans (fileFlush_marksNone h1)

lemma fileClose_marksNone (h : fileClose s f = .ok s') : MarksNone s s' := by
  unfold fileClose at h
  obtain ⟨s1, hflush, h1⟩ := bind_eq_ok.mp h
  obtain ⟨s2, hdir, h2⟩ := bind_eq_ok.mp h1
  exact ((fileFlush_marksNone hflush).trans (fileFlushDir_marksNone hdir)).trans
    (writeBlock_marksNone h2)

/-- `file_truncate` marks no page. -/
lemma fileTruncate_marksNone (h : fileTruncate s f w = .ok s') : MarksNone s s' := by
  unfold fileTruncate at h
  obtain ⟨s1, hloop, h1⟩ := bind_eq_ok.mp h
  have hs1 : MarksNone s s1 := by
    refine foldlM_marksNone (fun bno s s' hs => ?_) hloop
    obtain ⟨⟨r, t⟩, hclear, hr⟩ := bind_eq_ok.mp hs
    obtain rfl := Except.ok.inj hr
    unfold fileClearBlock at hclear
    obtain ⟨⟨x, t1⟩, hwalk, h2⟩ := bind_eq_ok.mp hclear
    have ht := fileBlockWalk_marksNone hwalk
    cases x with
    | error r =>
      replace h2 := pure_pair_inj h2
      exact h2.2 ▸ ht
    | ok ptr =>
      simp only at h2
      split_ifs at h2 <;> simp only [pure_eq_ok, Except.ok.injEq, Prod.mk.injEq] at h2 <;>
        rw [← h2.2]
      · exact ht.trans (freeBlock_marksNone t1 _)
      · exact ht
  rw [pure_eq_ok, Except.ok.injEq] at h1
  rw [← h1]
  refine hs1.trans fun b hb => ?_
  by_cases hind : (if w = 0 then 0 else w.toNat / 4096 + 1) ≤ ndirect ∧ s1.load f.indirect ≠ 0
  · rw [if_pos hind] at hb
    exact freeBlock_marksNone s1 _ b hb
  · rw [if_neg hind] at hb
    exact hb

/-- `file_set_size` marks no page. -/
lemma fileSetSize_marksNone (h : fileSetSize s f w = .ok (r, s')) : MarksNone s s' := by
  unfold fileSetSize at h
  have hfinish : ∀ s1 : BlockCache, (do let s ← fileFlushDir (s1.store f.size w) f; pure (0, s)) =
      .ok (r, s') → MarksNone s1 s' := by
    intro s1 h1
    obtain ⟨s2, hdir, h2⟩ := bind_eq_ok.mp h1
    replace h2 := pure_pair_inj h2
    rw [← h2.2]
    exact fun b hb => fileFlushDir_marksNone hdir b hb
  simp only at h
  split_ifs at h
  · obtain ⟨s1, htrunc, h1⟩ := bind_eq_ok.mp h
    exact (fileTruncate_marksNone htrunc).trans (hfinish s1 h1)
  · exact hfinish s h

/-- `file_dirty` marks a block of the file. -/
lemma CacheInv.fileDirty_marks (hs : CacheInv s) (hf : InCache s f)
    (h : fileDirty s f w = .ok (r, s')) (hb : s'.dirty b = true) :
    s.dirty b = true ∨ ∃ q, Holds s.content f q b := by
  unfold MosVolca.fileDirty at h
  obtain ⟨⟨x, s1⟩, hmap, h1⟩ := bind_eq_ok.mp h
  have hs1 := fileMapBlock_marksNone hmap
  have hload := fileMapBlock_loads hmap
  cases x with
  | error r =>
    replace h1 := pure_pair_inj h1
    exact .inl (hs1 b (h1.2 ▸ hb))
  | ok bno =>
    unfold MosVolca.dirtyBlock at h1
    obtain ⟨va, hva, h2⟩ := bind_eq_ok.mp h1
    obtain rfl := diskaddr_eq hva
    by_cases hbv : b = va
    · subst hbv
      rcases fileMapBlock_cases hmap with ⟨r, -, hx⟩ | ⟨ptr, s2, hwalk, hcase⟩
      · exact absurd hx (by simp)
      · obtain ⟨-, -, hptr⟩ := hs.fileBlockWalk hf.dirent hf.mapped hwalk
          fun ha => absurd ha Bool.false_ne_true
        obtain ⟨hfield, rfl, hmapped⟩ := hptr ptr rfl
        rcases hcase with ⟨hne, hx, -⟩ | ⟨-, -, hx, -⟩ | ⟨-, ha, -⟩
        · rw [load_eq hmapped] at hne hx
          refine .inr ⟨.data (w.toNat / 4096), ?_⟩
          rw [← (fileBlockWalk_loads hwalk).content]
          exact ⟨hfield, hne, (Except.ok.inj hx).symm⟩
        · exact absurd hx (by simp)
        · exact absurd ha Bool.false_ne_true
    · refine .inl (hs1 b ?_)
      split_ifs at h2 <;> simp only [pure_eq_ok, Except.ok.injEq, Prod.mk.injEq] at h2 <;>
        rw [← h2.2] at hb
      · exact hb
      · exact hb
      · exact (Function.update_of_ne hbv _ _).symm.trans hb

end MosVolca
