import MosVolca.Fs.FileNames

/-!
# The data blocks of files

Which block pointers for data `file_get_block` changes: none but the one that it is called for, and
that one only if it was null. A new block of a directory holds zeros. The blocks of the files that
are no directories keep their contents.

## Main definitions

* `MosVolca.AddsBlock` — the block pointers for data before and after.

## Main results

* `MosVolca.CacheInv.fileGetBlock_addsBlock` — what `file_get_block` does to them.
* `MosVolca.ActsOn.data` — the contents of the files that are no directories.
-/

namespace MosVolca

variable {c c' c1 : Blocks} {s s' s1 : BlockCache} {f g : FilePtr} {b k bno : ℕ}

/-- No block pointer for data changes but the one for block `bno` of `f`, if that was null; if `f`
is a directory and the block belongs to it, the new block holds zeros. -/
structure AddsBlock (f : FilePtr) (bno : ℕ) (c c' : Blocks) : Prop where
  kept : ∀ g i b, Dirent c g → Holds c g (.data i) b → Holds c' g (.data i) b
  new : ∀ g i b, Dirent c g → Holds c' g (.data i) b → Holds c g (.data i) b ∨
    g = f ∧ i = bno ∧
      (wordAt c f.type = ftypeDir → bno < sizeBlocksOf c f → Blank c' b)

lemma AddsBlock.of_iff (h : ∀ g i b, Dirent c g → (Holds c' g (.data i) b ↔ Holds c g (.data i) b)) :
    AddsBlock f bno c c' where
  kept := fun g i b hg => (h g i b hg).mpr
  new := fun g i b hg hold => .inl ((h g i b hg).mp hold)

lemma SameFiles.data_iff (h : SameFiles s s') (hg : Dirent s.content g) {p : Slot} :
    Holds s'.content g p b ↔ Holds s.content g p b := (h.agrees g hg).holds_iff

namespace CacheInv

/-- The new indirect block is empty. -/
lemma needIndirect_data {alloc : Bool} {x : Except Word Unit} (hs : CacheInv s)
    (hf : Dirent s.content f) (hm : s.mapped f.block = true)
    (h : MosVolca.needIndirect s f alloc = .ok (x, s'))
    (hclean : alloc = true → s.load f.indirect = 0 → AllocClean s) {i : ℕ}
    (hg : Dirent s.content g) :
    Holds s'.content g (.data i) b ↔ Holds s.content g (.data i) b := by
  rcases needIndirect_cases h with ⟨-, -, rfl⟩ | ⟨-, -, -, rfl⟩ | ⟨h0, ha, hcase⟩
  · rfl
  · rfl
  · rcases hcase with ⟨r, halloc, -⟩ | ⟨v, s1, halloc, -, rfl⟩
    · obtain ⟨-, hsame, -⟩ := hs.allocBlock halloc
      exact hsame.data_iff hg
    · obtain ⟨hs1, hsame, hfresh⟩ := hs.allocBlock halloc
      obtain ⟨hfresh, hblank⟩ := hfresh v rfl
      have hblank := hblank (hclean ha h0)
      have hf1 := hsame.dirent_iff.mpr hf
      have hg1 := hsame.dirent_iff.mpr hg
      have hv : (BitVec.ofNat 32 v).toNat = v := by
        have := hfresh.usable.lt
        unfold nblocksOf at this
        rw [BitVec.toNat_ofNat, Nat.mod_eq_of_lt (by omega)]
      have hind : wordAt s1.content f.indirect = 0 := by
        rw [(hsame.agrees f hf).indirect, ← load_eq (p := f.indirect) hm, h0]
      have hblock : (BitVec.ofNat 32 v).toNat ≠ f.block :=
        (hf1.ne_block (x := .head 44) Consistent.hasField_indirect (hv.symm ▸ hfresh.usable.ge)
          (hv.symm ▸ hfresh.unheld)).symm
      rw [content_store (p := f.indirect) (hsame.mapped _ hm), ← hsame.data_iff hg]
      constructor
      · intro hold
        rcases hs1.consistent.holds_putIndirect hg1 hf1 hblock (fun _ => hv.symm ▸ hblank) hold with
          hold | ⟨-, hp, -⟩
        · exact hold
        · cases hp
      · exact hs1.consistent.holds_data_putIndirect hg1 hf1 hind

lemma fileBlockWalk_data {alloc : Bool} {x : Except Word WordPtr} (hs : CacheInv s)
    (hf : Dirent s.content f) (hm : s.mapped f.block = true)
    (h : MosVolca.fileBlockWalk s f bno alloc = .ok (x, s'))
    (hclean : alloc = true → WalkClean s f bno) {i : ℕ} (hg : Dirent s.content g) :
    Holds s'.content g (.data i) b ↔ Holds s.content g (.data i) b := by
  rcases fileBlockWalk_cases h with ⟨-, -, rfl⟩ | ⟨-, -, rfl⟩ |
    ⟨hd, hn, ⟨r, hneed, -⟩ | ⟨isnew, s1, hneed, hread, -⟩⟩
  · rfl
  · rfl
  · exact hs.needIndirect_data hf hm hneed (fun ha => hclean ha hd hn) hg
  · rw [(readBlock_loads hread).1.content]
    exact hs.needIndirect_data hf hm hneed (fun ha => hclean ha hd hn) hg

/-- A clean `file_map_block` adds at most one block to the file. -/
lemma fileMapBlock_addsBlock {x : Except Word ℕ} (hs : CacheInv s) (hf : Dirent s.content f)
    (hm : s.mapped f.block = true) (h : MosVolca.fileMapBlock s f bno true = .ok (x, s'))
    (hclean : MapClean s f bno) : AddsBlock f bno s.content s'.content := by
  rcases fileMapBlock_cases h with ⟨r, hwalk, -⟩ | ⟨ptr, s1, hwalk, hcase⟩
  · exact .of_iff fun g i b hg => hs.fileBlockWalk_data hf hm hwalk (fun _ => hclean.1) hg
  · obtain ⟨hs1, hgrow, hptr⟩ := hs.fileBlockWalk hf hm hwalk fun _ => hclean.1
    have hdata : ∀ g i b, Dirent s.content g →
        (Holds s1.content g (.data i) b ↔ Holds s.content g (.data i) b) :=
      fun g i b hg => hs.fileBlockWalk_data hf hm hwalk (fun _ => hclean.1) hg
    obtain ⟨hfield, rfl, hmap⟩ := hptr ptr rfl
    have hf1 := hgrow.dirent f hf
    rcases hcase with ⟨-, -, rfl⟩ | ⟨-, ha, -⟩ | ⟨h0, -, ⟨r, halloc, -⟩ | ⟨v, s2, halloc, -, rfl⟩⟩
    · exact .of_iff hdata
    · exact absurd ha.symm Bool.false_ne_true
    · obtain ⟨-, hsame, -⟩ := hs1.allocBlock halloc
      exact .of_iff fun g i b hg => (hsame.data_iff (hgrow.dirent g hg)).trans (hdata g i b hg)
    · obtain ⟨hs2, hsame, hfresh⟩ := hs1.allocBlock halloc
      obtain ⟨hfresh, hblank⟩ := hfresh v rfl
      have hag := hsame.agrees f hf1
      have hf2 := hsame.dirent_iff.mpr hf1
      have hfield2 := (hag.hasField_iff _).mpr hfield
      have hv : (BitVec.ofNat 32 v).toNat = v := by
        have := hfresh.usable.lt
        unfold nblocksOf at this
        rw [BitVec.toNat_ofNat, Nat.mod_eq_of_lt (by omega)]
      have hnull : ∀ b, ¬ Holds s.content f (.data bno) b := by
        intro b hold
        have hold1 := (hdata f bno b hf).mpr hold
        rw [load_eq hmap] at h0
        exact hold1.2.1 h0
      rw [content_store (hsame.mapped _ hmap), ← hag.placeOf_eq]
      refine ⟨fun g i b hg hold => ?_, fun g i b hg hold => ?_⟩
      · have hg1 := hgrow.dirent g hg
        rw [hs2.consistent.holds_putData (hsame.dirent_iff.mpr hg1) hf2 hfield2, if_neg]
        · exact (hsame.data_iff hg1).mpr ((hdata g i b hg).mpr hold)
        · rintro ⟨rfl, hi⟩
          rw [Slot.data.injEq] at hi
          exact hnull b (hi ▸ hold)
      · have hg1 := hgrow.dirent g hg
        rw [hs2.consistent.holds_putData (hsame.dirent_iff.mpr hg1) hf2 hfield2] at hold
        split_ifs at hold with hc
        · obtain ⟨rfl, hi⟩ := hc
          rw [Slot.data.injEq] at hi
          refine .inr ⟨rfl, hi, fun ht hsz => ?_⟩
          have hbv : b = v := hold.2.symm.trans hv
          have hclean2 : AllocClean s1 := hclean.2 _ s1 hwalk h0
            (by rw [load_eq (p := g.type) hm, ht]) (by rwa [sizeBlocks_eq hm])
          intro j hj
          rw [hbv, show putWord s2.content (placeOf s2.content g (Slot.data bno).field)
            (BitVec.ofNat 32 v) v j = s2.content v j from
            TwoLevel.write_of_ne_page (hf2.ne_block hfield2 hfresh.usable.ge hfresh.unheld).symm]
          exact hblank hclean2 j hj
        · exact .inl ((hdata g i b hg).mp ((hsame.data_iff hg1).mp hold))

/-- **`file_get_block`** changes one block pointer for data, if that was null. -/
theorem fileGetBlock_addsBlock {x : Except Word ℕ} (hs : CacheInv s) (hf : Dirent s.content f)
    (hm : s.mapped f.block = true) (h : MosVolca.fileGetBlock s f bno = .ok (x, s'))
    (hclean : MapClean s f bno) : AddsBlock f bno s.content s'.content := by
  unfold MosVolca.fileGetBlock at h
  obtain ⟨⟨y, s1⟩, hmap, h1⟩ := bind_eq_ok.mp h
  have hadds := hs.fileMapBlock_addsBlock hf hm hmap hclean
  cases y with
  | error r =>
    cases h1
    exact hadds
  | ok v =>
    obtain ⟨⟨isnew, s2⟩, hread, h2⟩ := bind_eq_ok.mp h1
    cases h2
    rw [(readBlock_loads hread).1.content]
    exact hadds

end CacheInv

/-! ## The contents of the other files -/

/-- A block for data of a file that is no directory holds no word of an entry. -/
lemma Consistent.data_ne_place (h : Consistent c) (hg : Dirent c g)
    (ht : wordAt c g.type ≠ ftypeDir) {i : ℕ} (hold : Holds c g (.data i) b) (hf : Dirent c f)
    {x : Field} (hx : HasField c f x) : b ≠ (placeOf c f x).block := by
  intro he
  cases x with
  | head n =>
    have hb : b = f.block := he
    cases hf with
    | root =>
      have hge := (h.usable hg hold).ge
      unfold firstData at hge
      have h1 : b = 1 := hb
      omega
    | child hd hb' hj =>
      obtain ⟨htd, i', -, hold'⟩ := hb'
      have hb : b = _ := hb
      subst hb
      obtain ⟨rfl, -⟩ := h.once hg hd hold hold'
      exact ht htd
  | far n =>
    have hind := holds_indirect (hasField_far.mp hx).2.2
    have hb : b = (wordAt c f.indirect).toNat := he
    rw [← hb] at hind
    exact absurd (h.once hg hf hold hind).2 Slot.noConfusion

/-- **The files that are no directories keep their contents** if a change acts on another file. -/
theorem ActsOn.data (h : ActsOn f c c') (hc : Consistent c) (hf : Dirent c f) (hg : Dirent c g)
    (ht : wordAt c g.type ≠ ftypeDir) {i : ℕ} (hold : Holds c g (.data i) b) (k : ℕ) :
    c' b k = c b k := by
  have hu := hc.usable hg hold
  refine h.word ⟨b, k⟩ (.inr hu.ge) hu.used ?_
  rintro ⟨x, -, hx, he⟩
  exact hc.data_ne_place hg ht hold hf hx (congrArg WordPtr.block he)

end MosVolca
