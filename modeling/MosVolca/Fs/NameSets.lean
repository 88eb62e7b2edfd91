import MosVolca.Fs.Walks
import Mathlib.Data.List.GetD

/-!
# The names in directories

What `file_create` and `file_remove` do to the sets of names of the directories, if no old data of a
block become names.

## Main definitions

* `MosVolca.namesOf` — the set of names in a directory.
* `MosVolca.SameNames` — a change that keeps the names.

## Main results

* `MosVolca.CacheInv.dirAllocFile_names` — a structure for a new file.
* `MosVolca.CacheInv.setName_names` — the name of the new file.
* `MosVolca.CacheInv.fileCreate_keepsFiles` — the files stay, and the new one is a file.
-/

namespace MosVolca

variable {c c' c1 : Blocks} {s s' s1 : BlockCache} {f g d dir : FilePtr} {b i j k n bno : ℕ}
  {name path : List Char8} {r w : Word}

/-- The structure is in a block of the directory. -/
def InDir (c : Blocks) (d f : FilePtr) : Prop :=
  ∃ b j, DirBlock c d b ∧ j < file2blk ∧ f = FilePtr.entry b j

/-- **The names in a directory.** -/
def namesOf (c : Blocks) (d : FilePtr) : Set (List Char8) :=
  {name | IsName name ∧ name.length < maxnamelen ∧ ∃ f, InDir c d f ∧ HasName c f name}

/-- A change that keeps the names. -/
structure SameNames (c c' : Blocks) : Prop where
  dirent : ∀ g, Dirent c g → Dirent c' g
  nameAt : ∀ g, Dirent c g → ∀ k < 128, nameAt c' g k = nameAt c g k
  names : ∀ g, Dirent c g → namesOf c' g = namesOf c g
  new : ∀ g, Dirent c' g → Dirent c g ∨ ¬ Named c' g ∧ namesOf c' g = ∅

lemma InDir.dirent (h : InDir c d f) (hd : Dirent c d) : Dirent c f := by
  obtain ⟨b, j, hb, hj, rfl⟩ := h
  exact .child hd hb hj

lemma namesOf_eq_empty (h : wordAt c d.type ≠ ftypeDir) : namesOf c d = ∅ := by
  refine Set.eq_empty_of_forall_notMem ?_
  rintro name ⟨-, -, f, ⟨b, j, hb, -⟩, -⟩
  exact h hb.1

lemma named_iff_nameAt : Named c f ↔ nameAt c f 0 ≠ 0 := by
  unfold Named nameAt
  simp

namespace SameNames

lemma named_iff (h : SameNames c c') (hg : Dirent c g) : Named c' g ↔ Named c g := by
  rw [named_iff_nameAt, named_iff_nameAt, h.nameAt g hg 0 (by decide)]

lemma trans (h : SameNames c c1) (h' : SameNames c1 c') : SameNames c c' where
  dirent := fun g hg => h'.dirent g (h.dirent g hg)
  nameAt := fun g hg k hk => (h'.nameAt g (h.dirent g hg) k hk).trans (h.nameAt g hg k hk)
  names := fun g hg => (h'.names g (h.dirent g hg)).trans (h.names g hg)
  new := by
    intro g hg
    rcases h'.new g hg with hg1 | hnew
    · rcases h.new g hg1 with hg0 | ⟨hname, hempty⟩
      · exact .inl hg0
      · exact .inr ⟨fun hn => hname ((h'.named_iff hg1).mp hn), (h'.names g hg1).trans hempty⟩
    · exact .inr hnew

/-- Which structures are files depends on the names only. -/
lemma isFile_iff (h : SameNames c c') : IsFile c' g ↔ IsFile c g := by
  constructor
  · rintro (rfl | ⟨hg, hname⟩)
    · exact .inl rfl
    · rcases h.new g hg with hg0 | ⟨hno, -⟩
      · exact .inr ⟨hg0, (h.named_iff hg0).mp hname⟩
      · exact absurd hname hno
  · rintro (rfl | ⟨hg, hname⟩)
    · exact .inl rfl
    · exact .inr ⟨h.dirent g hg, (h.named_iff hg).mpr hname⟩

end SameNames

/-- The names stay if the entries keep theirs and the directories their blocks, and new blocks have
neither names nor directories in them. -/
lemma sameNames_of (hname : ∀ g, Dirent c g → ∀ k < 128, nameAt c' g k = nameAt c g k)
    (hkeep : ∀ g b, Dirent c g → DirBlock c g b → DirBlock c' g b)
    (hnew : ∀ g b, Dirent c g → DirBlock c' g b → DirBlock c g b ∨
      ∀ j < file2blk, ¬ Named c' (FilePtr.entry b j) ∧ wordAt c' (FilePtr.entry b j).type ≠ ftypeDir) :
    SameNames c c' where
  dirent := fun g hg => hg.mono hkeep
  nameAt := hname
  names := by
    have hhas : ∀ g name, Dirent c g → name.length < maxnamelen →
        (HasName c' g name ↔ HasName c g name) := by
      intro g name hg hlen
      have hlen : name.length < 128 := hlen
      unfold HasName
      refine forall₂_congr fun k hk => ?_
      rw [hname g hg k (by omega)]
    intro d hd
    ext name
    refine and_congr_right fun hisname => and_congr_right fun hlen => ⟨?_, ?_⟩
    · rintro ⟨f, ⟨b, j, hb, hj, rfl⟩, hf⟩
      rcases hnew d b hd hb with hb | hno
      · exact ⟨_, ⟨b, j, hb, hj, rfl⟩, (hhas _ name (.child hd hb hj) hlen).mp hf⟩
      · exact absurd (hf.named hisname) (hno j hj).1
    · rintro ⟨f, ⟨b, j, hb, hj, rfl⟩, hf⟩
      exact ⟨_, ⟨b, j, hkeep d b hd hb, hj, rfl⟩, (hhas _ name (.child hd hb hj) hlen).mpr hf⟩
  new := by
    intro g hg
    have hcases : Dirent c g ∨ ¬ Named c' g ∧ wordAt c' g.type ≠ ftypeDir := by
      induction hg with
      | root => exact .inl .root
      | @child d b j hd hb hj ih =>
        rcases ih with hd0 | ⟨-, ht⟩
        · rcases hnew d b hd0 hb with hb | hno
          · exact .inl (.child hd0 hb hj)
          · exact .inr (hno j hj)
        · exact absurd hb.1 ht
    exact hcases.imp id fun hn => ⟨hn.1, namesOf_eq_empty hn.2⟩

/-- **A change that does not show** keeps the names. -/
lemma Browses.sameNames (h : Browses c c') : SameNames c c' := by
  refine sameNames_of (fun g hg k hk => h.nameAt hg hk) (fun g b hg hb => ?_) fun g b hg hb => ?_
  · obtain ⟨ht, i, hi, hold⟩ := hb
    exact ⟨(h.type hg).trans ht, i, (h.size hg).symm ▸ hi, h.kept g i b hg hold⟩
  · obtain ⟨ht, i, hi, hold⟩ := hb
    rw [h.type hg] at ht
    rw [h.size hg] at hi
    rcases h.new g i b hg hold with hold | ⟨-, -, hno⟩
    · exact .inl ⟨ht, i, hi, hold⟩
    · exact .inr hno

/-! ## A structure for a new file -/

/-- The other words of the entries stay if the size of a directory is written. -/
lemma Consistent.head_putSize (h : Consistent c) (hd : Dirent c dir) (hg : Dirent c g) (hk : k < 64)
    (hne : k ≠ 32) : wordAt (putWord c dir.size w) ⟨g.block, g.word + k⟩ =
      wordAt c ⟨g.block, g.word + k⟩ := by
  refine wordAt_putWord_of_ne fun he => ?_
  have hx := (h.place_inj hg hd (x := .head k) hk (y := .head 32) (by decide : 32 < 64) he).2
  rw [Field.head.injEq] at hx
  exact hne hx

/-- A directory is not in a block of zeros. -/
lemma Consistent.type_of_blank {p : Slot} (h : Consistent c) (hg : Dirent c g)
    (hold : Holds c g p g.block) (hzero : Blank c g.block) : wordAt c g.type ≠ ftypeDir := by
  intro ht
  rcases h.block_entry hg with rfl | ⟨-, l, hl, hgl⟩
  · have := (h.usable hg hold).ge
    unfold firstData at this
    simp only [FilePtr.root] at this
    omega
  · have h0 := hzero.word_head hl (by decide : 33 < 64)
    rw [← hgl] at h0
    exact absurd (ht.symm.trans h0) (by decide)

/-- A directory gets a bigger size: the names stay if the blocks that it has there hold zeros. -/
lemma Consistent.putSize_sameNames (h : Consistent c) (hd : Dirent c dir)
    (hle : (wordAt c dir.size).toNat ≤ w.toNat)
    (hblank : ∀ i b, sizeBlocksOf c dir ≤ i → i < w.toNat / 4096 → Holds c dir (.data i) b →
      Blank c b) : SameNames c (putWord c dir.size w) := by
  have htype : ∀ g, Dirent c g → wordAt (putWord c dir.size w) g.type = wordAt c g.type :=
    fun g hg => h.head_putSize hd hg (by decide) (by decide)
  have hsize : w.toNat / 4096 = sizeBlocksOf (putWord c dir.size w) dir := by
    rw [sizeBlocksOf, wordAt_putWord_self]
  have hother : ∀ g b, Dirent c g → g ≠ dir →
      (DirBlock (putWord c dir.size w) g b ↔ DirBlock c g b) := fun g b hg hgd =>
    (h.agrees_of_field hg hd (y := .head 32) (by decide : 32 < 64) (.inl hgd)).dirBlock_iff
  refine sameNames_of (fun g hg k hk => ?_) (fun g b hg hb => ?_) fun g b hg hb => ?_
  · exact congrArg (fun x : Word => (x >>> (8 * (k % 4))).setWidth 8)
      (h.head_putSize hd hg (k := k / 4) (by omega) (by omega))
  · by_cases hgd : g = dir
    · subst hgd
      obtain ⟨ht, i, hi, hold⟩ := hb
      refine ⟨(htype g hg).trans ht, i, ?_, (h.holds_putHead (k := 32) hg hg (by decide)).mpr hold⟩
      rw [← hsize]
      exact hi.trans_le (Nat.div_le_div_right hle)
    · exact (hother g b hg hgd).mpr hb
  · by_cases hgd : g = dir
    · subst hgd
      obtain ⟨ht, i, hi, hold⟩ := hb
      rw [htype g hg] at ht
      rw [← hsize] at hi
      have hold := (h.holds_putHead (k := 32) hg hg (by decide)).mp hold
      by_cases hlt : i < sizeBlocksOf c g
      · exact .inl ⟨ht, i, hlt, hold⟩
      · -- the directory is not in a block of zeros
        have hzero := hblank i b (Nat.le_of_not_lt hlt) hi hold
        have hne : b ≠ g.block := by
          rintro rfl
          exact h.type_of_blank hg hold hzero ht
        have hzero : Blank (putWord c g.size w) b := fun k hk =>
          (TwoLevel.write_of_ne_page hne).trans (hzero k hk)
        refine .inr fun j hj => ⟨hzero.not_named hj, ?_⟩
        rw [show wordAt (putWord c g.size w) (FilePtr.entry b j).type = 0 from
          hzero.word_head hj (by decide : 33 < 64)]
        decide
    · exact .inl ((hother g b hg hgd).mp hb)

/-- A block belongs to one directory, and to one place in it. -/
lemma Consistent.dirBlock_unique (h : Consistent c) (hd : Dirent c d) (hg : Dirent c g)
    (hb : DirBlock c d b) (hold : Holds c g (.data i) b) : d = g ∧ i < sizeBlocksOf c d := by
  obtain ⟨-, i', hi, hold'⟩ := hb
  obtain ⟨rfl, hii⟩ := h.once hd hg hold' hold
  rw [Slot.data.injEq] at hii
  exact ⟨rfl, hii ▸ hi⟩

/-- The root is in no directory. -/
lemma InDir.ne_root (h : InDir c d f) : f ≠ FilePtr.root := by
  obtain ⟨b, j, -, -, rfl⟩ := h
  exact FilePtr.entry_ne_root b j

/-- A structure is in one directory. -/
lemma Consistent.inDir_unique (h : Consistent c) (hd : Dirent c d) (hg : Dirent c g)
    (hf : InDir c d f) (hf' : InDir c g f) : d = g := by
  obtain ⟨b, j, hb, -, rfl⟩ := hf
  obtain ⟨b', j', ⟨-, i', -, hold⟩, -, he⟩ := hf'
  have hbb : b = b' := congrArg FilePtr.block he
  exact (h.dirBlock_unique hd hg hb (hbb ▸ hold)).1

namespace CacheInv

/-- A directory grows: what is in the new size of it. -/
lemma dirGrow_size (hm : s.mapped dir.block = true) (hi : i = sizeBlocksOf s.content dir)
    (hlt : i ≤ nindirect) : (s.load dir.size + 4096).toNat / 4096 = i + 1 := by
  have hle : i ≤ 1024 := hlt
  have hadd : (s.load dir.size + 4096).toNat = ((s.load dir.size).toNat + 4096) % 2 ^ 32 := by
    rw [BitVec.toNat_add]
    rfl
  rw [load_eq (p := dir.size) hm] at hadd ⊢
  unfold sizeBlocksOf at hi
  omega

/-- The new block of a directory is a block of zeros. -/
lemma dirGrow_blank (hs : CacheInv s) (hd : Dirent s.content dir) (hm : s.mapped dir.block = true)
    (ht : wordAt s.content dir.type = ftypeDir) (hi : i = sizeBlocksOf s.content dir)
    (hle : i ≤ nindirect) (h : MosVolca.dirGrow s dir i = .ok (.ok f, s'))
    (hclean : GrowClean s dir i) : ∃ b, f = FilePtr.entry b 0 ∧ Blank s'.content b := by
  unfold MosVolca.dirGrow at h
  obtain ⟨⟨y, s2⟩, hget, h1⟩ := bind_eq_ok.mp h
  have hsize := dirGrow_size hm hi hle
  obtain ⟨hs1, hd1⟩ := hs.setSize (w := s.load dir.size + 4096) hd hm fun j b _ hge hj hold => by
    have : j = i := by omega
    exact hclean.1 b (this ▸ hold)
  have hcon : (s.store dir.size (s.load dir.size + 4096)).content =
      putWord s.content dir.size (s.load dir.size + 4096) := content_store hm
  obtain ⟨-, -, hblk⟩ := hs1.fileGetBlock hd1 hm hget hclean.2
  have hadds := hs1.fileGetBlock_addsBlock hd1 hm hget hclean.2
  cases y with
  | error r => simp at h1
  | ok b =>
    obtain ⟨hf, rfl⟩ := pure_pair_inj h1
    refine ⟨b, (Except.ok.inj hf).symm, ?_⟩
    obtain ⟨hold, -⟩ := hblk b rfl
    rcases hadds.new dir i b hd1 hold with hold1 | ⟨-, -, hblank⟩
    · -- the block was there, beyond the size
      obtain ⟨-, hload, -⟩ :=
        fileGetBlock_held (s := s.store dir.size (s.load dir.size + 4096)) hm hold1 hget
      rw [hload.content]
      rw [hcon] at hold1 ⊢
      have hold0 := (hs.consistent.holds_putHead (k := 32) hd hd (by decide)).mp hold1
      have hzero := hclean.1 b hold0
      have hne : b ≠ dir.block := by
        rintro rfl
        exact hs.consistent.type_of_blank hd hold0 hzero ht
      exact fun k hk => (TwoLevel.write_of_ne_page hne).trans (hzero k hk)
    · refine hblank ?_ ?_
      · rw [hcon, ← ht]
        exact hs.consistent.head_putSize hd hd (by decide) (by decide)
      · rw [hcon, sizeBlocksOf, wordAt_putWord_self, hsize]
        exact Nat.lt_succ_self i

/-- A directory grows by one block. -/
lemma dirGrow_names {x : Except Word FilePtr} (hs : CacheInv s) (hd : Dirent s.content dir)
    (hm : s.mapped dir.block = true) (ht : wordAt s.content dir.type = ftypeDir)
    (hi : i = sizeBlocksOf s.content dir) (hle : i ≤ nindirect)
    (h : MosVolca.dirGrow s dir i = .ok (x, s')) (hclean : GrowClean s dir i) :
    SameNames s.content s'.content ∧
      ∀ f, x = .ok f → InDir s'.content dir f ∧ ¬ Named s'.content f := by
  have hzero : ∀ f, x = .ok f → ∃ b, f = FilePtr.entry b 0 ∧ Blank s'.content b := by
    rintro f rfl
    exact hs.dirGrow_blank hd hm ht hi hle h hclean
  unfold MosVolca.dirGrow at h
  obtain ⟨⟨y, s2⟩, hget, h1⟩ := bind_eq_ok.mp h
  have hnew := dirGrow_size hm hi hle
  have hbeyond : ∀ j b, sizeBlocksOf s.content dir ≤ j → j < (s.load dir.size + 4096).toNat / 4096 →
      Holds s.content dir (.data j) b → Blank s.content b := by
    intro j b hge hlt hold
    have hj : j = i := by omega
    exact hclean.1 b (hj ▸ hold)
  obtain ⟨hs1, hd1⟩ := hs.setSize (w := s.load dir.size + 4096) hd hm fun j b _ => hbeyond j b
  have hcon : (s.store dir.size (s.load dir.size + 4096)).content =
      putWord s.content dir.size (s.load dir.size + 4096) := content_store hm
  have hsame1 : SameNames s.content (s.store dir.size (s.load dir.size + 4096)).content := by
    rw [hcon]
    refine hs.consistent.putSize_sameNames hd ?_ hbeyond
    unfold sizeBlocksOf at hi
    omega
  have ht1 : wordAt (s.store dir.size (s.load dir.size + 4096)).content dir.type = ftypeDir := by
    rw [hcon, ← ht]
    exact hs.consistent.head_putSize hd hd (by decide) (by decide)
  have hi1 : i < sizeBlocksOf (s.store dir.size (s.load dir.size + 4096)).content dir := by
    rw [hcon, sizeBlocksOf, wordAt_putWord_self, hnew]
    exact Nat.lt_succ_self i
  have hbr := hs1.fileGetBlock_browses hd1 hm ht1 hi1 hget hclean.2
  obtain ⟨hs2, hg, hblk⟩ := hs1.fileGetBlock hd1 hm hget hclean.2
  cases y with
  | error r =>
    cases h1
    refine ⟨hsame1.trans hbr.sameNames, fun f hf => ?_⟩
    cases hf
  | ok blk =>
    cases h1
    refine ⟨hsame1.trans hbr.sameNames, fun f hf => ?_⟩
    cases hf
    obtain ⟨hold, -⟩ := hblk blk rfl
    refine ⟨⟨blk, 0, ⟨(hbr.type hd1).trans ht1, i, ?_, hold⟩, by decide, rfl⟩, ?_⟩
    · rwa [hbr.size hd1]
    · obtain ⟨b, he, hblank⟩ := hzero _ rfl
      rw [he]
      exact hblank.not_named (by decide)

/-- **`dir_alloc_file`** keeps the names and finds a structure without a name. -/
theorem dirAllocFile_names {x : Except Word FilePtr} (hs : CacheInv s) (hd : Dirent s.content dir)
    (hm : s.mapped dir.block = true) (ht : wordAt s.content dir.type = ftypeDir)
    (h : MosVolca.dirAllocFile s dir = .ok (x, s'))
    (hclean : AllocFileClean s dir (s.sizeBlocks dir) 0) : SameNames s.content s'.content ∧
      ∀ f, x = .ok f → InDir s'.content dir f ∧ ¬ Named s'.content f := by
  obtain ⟨t, ht', hg, hw, hcases⟩ :=
    hs.dirAllocFrom_cases hd hm ht (by rw [sizeBlocks_eq hm]; omega) (Nat.zero_le _) h hclean
  have hsame := (hw.browses hs).sameNames
  have htype := (hg.type dir hd).trans ht
  rcases hcases with ⟨rfl, hres⟩ | ⟨hle, hgrow, hgc⟩
  · refine ⟨hsame, fun f hf => ?_⟩
    obtain ⟨b, j, k, rfl, hfind, hk, hold, hmb⟩ := hres f hf
    exact ⟨⟨b, j, ⟨htype, k, hk, hold⟩, lt_of_find_entry hfind, rfl⟩, findFree_not_named hfind hmb⟩
  · obtain ⟨hsame', hres⟩ :=
      ht'.dirGrow_names (hg.dirent dir hd) (hg.mapped _ hm) htype rfl hle hgrow hgc
    exact ⟨hsame.trans hsame', hres⟩

end CacheInv

/-! ## The name of a file -/

/-- The bytes of a word after one of them is written. -/
lemma setByte_byte (w : Word) (x : Char8) (hk : k < 4) :
    ((BlockCache.setByte w j x) >>> (8 * k)).setWidth 8 =
      if j = k then x else ((w >>> (8 * k)).setWidth 8 : Char8) := by
  have hmask : ∀ n, ∀ h : n < 32, (255#32)[n] = decide (n < 8) := by decide
  apply BitVec.eq_of_getLsbD_eq
  intro i hi
  have h32 : 8 * k + i < 32 := by omega
  split_ifs with hjk
  · subst hjk
    simp [BlockCache.setByte, hi, h32, hmask]
  · by_cases hle : 8 * k + i < 8 * j
    · simp [BlockCache.setByte, hi, h32, hle]
    · have h8 : 8 ≤ 8 * k + i - 8 * j := by omega
      simp [BlockCache.setByte, hi, h32, hle, hmask, Nat.not_lt.mpr h8, BitVec.getLsbD_of_ge x _ h8]

/-- The bytes of a name after one of them is written. -/
lemma nameByte_setNameByte_eq (s : BlockCache) (f : FilePtr) (k j : ℕ) (x : Char8) :
    (s.setNameByte f k x).nameByte f j = if k = j then x else s.nameByte f j := by
  unfold BlockCache.nameByte BlockCache.setNameByte BlockCache.store
  by_cases hword : k / 4 = j / 4
  · simp only [hword]
    rw [show TwoLevel.write s.mem f.block (f.word + j / 4) _ f.block (f.word + j / 4) = _ from
      TwoLevel.write_same _ _ _ _, setByte_byte _ _ (by omega)]
    have hiff : k % 4 = j % 4 ↔ k = j := by omega
    simp only [hiff]
    rfl
  · rw [if_neg fun he => hword (by rw [he])]
    have hne : f.word + j / 4 ≠ f.word + k / 4 := by omega
    exact congrArg (fun y : Word => (y >>> (8 * (j % 4))).setWidth 8) (TwoLevel.write_of_ne (.inr hne))

/-- **The bytes of the name** that is written. -/
lemma nameByte_setName_eq (s : BlockCache) (f : FilePtr) (name : List Char8)
    (hk : k ≤ name.length) : (s.setName f name).nameByte f k = name.getD k 0 := by
  have hloop : ∀ (l : List ℕ) (t : BlockCache),
      (l.foldl (fun t k => t.setNameByte f k (name.getD k 0)) t).nameByte f k =
        if k ∈ l then name.getD k 0 else t.nameByte f k := by
    intro l
    induction l with
    | nil => exact fun t => (if_neg List.not_mem_nil).symm
    | cons j l ih =>
      intro t
      rw [List.foldl_cons, ih, nameByte_setNameByte_eq]
      by_cases hl : k ∈ l
      · rw [if_pos hl, if_pos (List.mem_cons_of_mem j hl)]
      · rw [if_neg hl]
        by_cases hj : j = k
        · rw [if_pos hj, if_pos (hj ▸ List.mem_cons_self), hj]
        · rw [if_neg hj, if_neg fun hm => (List.mem_cons.mp hm).elim (fun he => hj he.symm) hl]
  unfold BlockCache.setName
  rw [hloop, if_pos (List.mem_range'.mpr ⟨k, by omega, by omega⟩)]

/-- The words that do not belong to the name stay. -/
lemma wordAt_setName (hm : s.mapped f.block = true) (hlen : name.length < maxnamelen)
    {p : WordPtr} (hp : ∀ m < 32, p ≠ ⟨f.block, f.word + m⟩) :
    wordAt (s.setName f name).content p = wordAt s.content p := by
  have hlen : name.length < 128 := hlen
  have hloop : ∀ l : List ℕ, (∀ k ∈ l, k < 128) → ∀ t : BlockCache, t.mapped f.block = true →
      wordAt (l.foldl (fun t k => t.setNameByte f k (name.getD k 0)) t).content p =
        wordAt t.content p := by
    intro l
    induction l with
    | nil => exact fun _ _ _ => rfl
    | cons k l ih =>
      intro hl t ht
      have hk := hl k List.mem_cons_self
      rw [List.foldl_cons, ih (fun k' hk' => hl k' (List.mem_cons_of_mem k hk'))
        (t.setNameByte f k (name.getD k 0)) ht]
      unfold BlockCache.setNameByte
      rw [content_store (p := ⟨f.block, f.word + k / 4⟩) ht]
      exact wordAt_putWord_of_ne (hp (k / 4) (by omega))
  refine hloop _ (fun k hk => ?_) s hm
  obtain ⟨i, hi, rfl⟩ := List.mem_range'.mp hk
  omega

/-- A name is the only one that a structure has. -/
lemma HasName.unique {name' : List Char8} (h : HasName c f name) (h' : HasName c f name')
    (hn : (0 : Char8) ∉ name) (hn' : (0 : Char8) ∉ name') : name = name' := by
  have hlen : ∀ {a b : List Char8}, HasName c f a → HasName c f b → (0 : Char8) ∉ b →
      b.length ≤ a.length := by
    intro a b ha hb h0
    by_contra hlt
    have hend := (ha a.length (by omega)).symm.trans (hb a.length (by omega))
    rw [List.getD_eq_default _ _ (Nat.le_refl _), List.getD_eq_getElem _ _ (by omega)] at hend
    exact h0 (hend ▸ List.getElem_mem _)
  refine List.ext_getElem (Nat.le_antisymm (hlen h' h hn) (hlen h h' hn')) fun k hk hk' => ?_
  have hbyte := (h k (by omega)).symm.trans (h' k (by omega))
  rwa [List.getD_eq_getElem _ _ hk, List.getD_eq_getElem _ _ hk'] at hbyte

namespace CacheInv

/-- The fields of the entries stay if the name of `f` is written, apart from that name. -/
lemma setName_place {x : Field} (hs : CacheInv s) (hf : Dirent s.content f)
    (hm : s.mapped f.block = true) (hlen : name.length < maxnamelen) (hg : Dirent s.content g)
    (hx : HasField s.content g x) (hne : g = f → ∀ m < 32, x ≠ .head m) :
    wordAt (s.setName f name).content (placeOf s.content g x) =
      wordAt s.content (placeOf s.content g x) := by
  refine wordAt_setName hm hlen fun m h32 he => ?_
  obtain ⟨rfl, hxm⟩ := hs.consistent.place_inj hg hf hx (y := .head m) (by omega : m < 64) he
  exact hne rfl m h32 hxm

/-- The entries hold what they held if a name is written. -/
lemma setName_agrees (hs : CacheInv s) (hf : Dirent s.content f) (hm : s.mapped f.block = true)
    (hlen : name.length < maxnamelen) (hg : Dirent s.content g) :
    Agrees s.content (s.setName f name).content g := by
  intro x hmeta hx
  refine hs.setName_place hf hm hlen hg hx fun _ m hm he => ?_
  subst he
  have h32 : 32 ≤ m := hmeta.1
  omega

/-- **The name of `f` is written.** The directory of `f` has one more name; the names in all other
directories stay. -/
theorem setName_names (hs : CacheInv s) (hd : Dirent s.content dir) (hf : InDir s.content dir f)
    (hm : s.mapped f.block = true) (hno : ¬ Named s.content f) (hname : IsName name)
    (hlen : name.length < maxnamelen) :
    (∀ g, Dirent (s.setName f name).content g ↔ Dirent s.content g) ∧
      (∀ e, InDir (s.setName f name).content dir e ↔ InDir s.content dir e) ∧
      HasName (s.setName f name).content f name ∧
      (∀ g, Dirent s.content g → g ≠ f → ∀ k < 128,
        MosVolca.nameAt (s.setName f name).content g k = MosVolca.nameAt s.content g k) ∧
      namesOf (s.setName f name).content dir = insert name (namesOf s.content dir) ∧
      ∀ g, Dirent s.content g → g ≠ dir →
        namesOf (s.setName f name).content g = namesOf s.content g := by
  have hfd := hf.dirent hd
  have hlen' : name.length < 128 := hlen
  have hag : ∀ g, Dirent s.content g → Agrees s.content (s.setName f name).content g :=
    fun g hg => hs.setName_agrees hfd hm hlen hg
  have hdirent : ∀ g, Dirent (s.setName f name).content g ↔ Dirent s.content g :=
    fun g => Consistent.entry_iff hag
  have hdir : ∀ g e, Dirent s.content g →
      (InDir (s.setName f name).content g e ↔ InDir s.content g e) := by
    intro g e hg
    unfold InDir
    simp only [(hag g hg).dirBlock_iff]
  have hself : HasName (s.setName f name).content f name := by
    intro k hk
    have hm' : (s.setName f name).mapped f.block = true := (hs.setName ⟨hfd, hm⟩ hlen).2.1.mapped
    rw [← nameByte_setName_eq s f name (by omega : k ≤ name.length), nameAt, content_of_mapped hm']
    rfl
  have hat : ∀ g, Dirent s.content g → g ≠ f → ∀ k < 128,
      MosVolca.nameAt (s.setName f name).content g k = MosVolca.nameAt s.content g k := by
    intro g hg hne k hk
    have hw := hs.setName_place hfd hm hlen hg (x := .head (k / 4)) (by omega : k / 4 < 64)
      fun he => absurd he hne
    exact congrArg (fun x : Word => (x >>> (8 * (k % 4))).setWidth 8) hw
  have hother : ∀ g nm, Dirent s.content g → g ≠ f → nm.length < maxnamelen →
      (HasName (s.setName f name).content g nm ↔ HasName s.content g nm) := by
    intro g nm hg hne hnm
    have hnm : nm.length < 128 := hnm
    unfold HasName
    refine forall₂_congr fun k hk => ?_
    rw [hat g hg hne k (by omega)]
  refine ⟨hdirent, fun e => hdir dir e hd, hself, hat, ?_, fun g hg hgd => ?_⟩
  · ext nm
    constructor
    · rintro ⟨hnm, hnl, e, he, hen⟩
      have he := (hdir dir e hd).mp he
      by_cases hef : e = f
      · subst hef
        exact .inl (hen.unique hself hnm.no_zero hname.no_zero)
      · exact .inr ⟨hnm, hnl, e, he, (hother e nm (he.dirent hd) hef hnl).mp hen⟩
    · rintro (rfl | ⟨hnm, hnl, e, he, hen⟩)
      · exact ⟨hname, hlen, f, (hdir dir f hd).mpr hf, hself⟩
      · have hef : e ≠ f := by
          rintro rfl
          exact hno (hen.named hnm)
        exact ⟨hnm, hnl, e, (hdir dir e hd).mpr he, (hother e nm (he.dirent hd) hef hnl).mpr hen⟩
  · ext nm
    have hne : ∀ e, InDir s.content g e → e ≠ f := by
      rintro e he rfl
      exact hgd (hs.consistent.inDir_unique hg hd he hf)
    refine and_congr_right fun hnm => and_congr_right fun hnl => exists_congr fun e => ?_
    rw [hdir g e hg]
    exact and_congr_right fun he => hother e nm (he.dirent hg) (hne e he) hnl

/-- **`file_create`** keeps the files, and makes one. -/
theorem fileCreate_keepsFiles {depth : ℕ} {x : Option FilePtr} (hs : CacheInv s)
    (hp : (0 : Char8) ∉ path) (h : MosVolca.fileCreate s depth path = .ok (r, x, s'))
    (hclean : CreateClean s depth path) :
    KeepsFiles s.content s'.content ∧ ∀ f, x = some f → IsFile s'.content f := by
  unfold MosVolca.fileCreate at h
  obtain ⟨⟨y, s1⟩, hwalk, h1⟩ := bind_eq_ok.mp h
  obtain ⟨hs1, -, hres, -⟩ := hs.walkPath hwalk hclean.1
  obtain ⟨hkeep, hfiles⟩ := hs.walkPath_keepsFiles hp hwalk hclean.1
  have hnone : ∀ {a : Word} {t s' : BlockCache}, KeepsFiles s.content t.content →
      (Except.ok (a, none, t) : Kernel _) = .ok (r, x, s') →
      KeepsFiles s.content s'.content ∧ ∀ f, x = some f → IsFile s'.content f := by
    intro a t s' hk he
    cases he
    exact ⟨hk, fun f hf => by cases hf⟩
  simp only at h1
  by_cases hcode : y.code = 0
  · rw [if_pos hcode] at h1
    exact hnone hkeep h1
  rw [if_neg hcode] at h1
  split at h1
  · exact hnone hkeep h1
  rename_i dir hdir
  by_cases hnf : y.code ≠ -eNotFound
  · rw [if_pos hnf] at h1
    exact hnone hkeep h1
  rw [if_neg hnf] at h1
  obtain ⟨⟨z, s2⟩, halloc, h2⟩ := bind_eq_ok.mp h1
  have hd := hres.dir dir hdir
  have ht := hres.type hcode dir hdir
  have hac := hclean.2 y s1 dir hwalk (by simpa using hnf) hdir
  obtain ⟨hs2, -, hfound⟩ := hs1.dirAllocFile hd.dirent hd.mapped ht halloc hac
  obtain ⟨hsame, hnew⟩ := hs1.dirAllocFile_names hd.dirent hd.mapped ht halloc hac
  have hkeep2 := hkeep.trans fun g hg => hsame.isFile_iff.mpr hg
  cases z with
  | error e => exact hnone hkeep2 h2
  | ok f =>
    cases h2
    obtain ⟨hin, hno⟩ := hnew f rfl
    have hname := hfiles.lastelem hcode dir hdir
    obtain ⟨hiff, -, hself, hother, -⟩ := hs2.setName_names (hsame.dirent dir hd.dirent) hin
      (hfound f rfl).2 hno hname hres.lastelem
    refine ⟨fun g hg => ?_, fun f' hf' => ?_⟩
    · rcases hkeep2 g hg with hroot | ⟨hg2, hnamed⟩
      · exact .inl hroot
      · refine .inr ⟨(hiff g).mpr hg2, named_iff_nameAt.mpr ?_⟩
        rw [hother g hg2 (fun he => hno (he ▸ hnamed)) 0 (by decide)]
        exact named_iff_nameAt.mp hnamed
    · cases hf'
      exact .inr ⟨(hiff f).mpr (hfound f rfl).1, hself.named hname⟩

end CacheInv

end MosVolca
