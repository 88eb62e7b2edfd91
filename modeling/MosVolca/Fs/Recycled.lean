import MosVolca.Fs.Handles
import MosVolca.Fs.NameEffects
import MosVolca.Tools.Fsformat

/-!
# Structures that are used again

`file_create` initializes nothing but the name: the type, the size and the block pointers of a new
file are what the last file in the structure has left behind. `file_remove` leaves the type, and the
block pointers beyond the size; and a request on a removed file that is still open writes to its
structure. If none of this happens, a new file is an empty regular file.

## Main definitions

* `MosVolca.EmptyFile` — the structure of an empty regular file.
* `MosVolca.Tidy` — the structures without a name are empty.
* `MosVolca.Recycles` — an event that leaves them so.

## Main results

* `MosVolca.Tidy.request` — one request.
* `MosVolca.emptyFile_of_run` — a new file after any run of such events.
* `MosVolca.new_file_is_directory` — a new file that is a directory.
-/

namespace MosVolca

variable {c c' : Blocks} {s s' s1 : BlockCache} {f g d dir : FilePtr} {b i k n bno depth : ℕ}
  {name path : List Char8} {elems : List (List Char8)} {w r : Word}

/-! ## Empty structures -/

/-- **The structure of an empty regular file.** -/
structure EmptyFile (c : Blocks) (f : FilePtr) : Prop where
  type : wordAt c f.type = ftypeReg
  size : wordAt c f.size = 0
  direct : ∀ i < ndirect, wordAt c (f.direct i) = 0
  indirect : wordAt c f.indirect = 0

/-- The structures in the blocks of directories that are no files are empty. -/
def Tidy (c : Blocks) : Prop := ∀ f, Dirent c f → ¬ IsFile c f → EmptyFile c f

/-- A file is empty if its words behind the name are 0. -/
lemma emptyFile_iff :
    EmptyFile c f ↔ ∀ k, 32 ≤ k → k ≤ 44 → wordAt c ⟨f.block, f.word + k⟩ = 0 := by
  constructor
  · intro h k hk hk'
    rcases (by omega : k = 32 ∨ k = 33 ∨ 34 ≤ k ∧ k < 44 ∨ k = 44) with rfl | rfl | ⟨hi, hi'⟩ | rfl
    · exact h.size
    · exact h.type
    · have hdirect := h.direct (k - 34) (by unfold ndirect; omega)
      rwa [FilePtr.direct, show 34 + (k - 34) = k by omega] at hdirect
    · exact h.indirect
  · intro h
    refine ⟨h 33 (by omega) (by omega), h 32 (by omega) (by omega), fun i hi => ?_,
      h 44 (by omega) (by omega)⟩
    have hi : i < 10 := hi
    exact h (34 + i) (by omega) (by omega)

lemma EmptyFile.congr (h : EmptyFile c f)
    (hword : ∀ k, 32 ≤ k → k ≤ 44 →
      wordAt c' ⟨f.block, f.word + k⟩ = wordAt c ⟨f.block, f.word + k⟩) : EmptyFile c' f :=
  emptyFile_iff.mpr fun k hk hk' => (hword k hk hk').trans (emptyFile_iff.mp h k hk hk')

lemma Blank.emptyFile {j : ℕ} (h : Blank c b) (hj : j < file2blk) :
    EmptyFile c (FilePtr.entry b j) :=
  emptyFile_iff.mpr fun _ _ hk => h.word_head hj (by omega)

namespace Tidy

/-- What is a directory is a file. -/
lemma isFile_of_dir (h : Tidy c) (hd : Dirent c d) (ht : wordAt c d.type = ftypeDir) : IsFile c d := by
  by_contra hno
  have hreg := (h d hd hno).type
  rw [ht] at hreg
  exact absurd hreg (by decide)

/-- A change that keeps the structures without a name, apart from empty ones. -/
lemma of_words (h : Tidy c) (hword : ∀ g, Dirent c' g → ¬ IsFile c' g → EmptyFile c' g ∨
    Dirent c g ∧ ∀ k, k = 0 ∨ 32 ≤ k ∧ k ≤ 44 →
      wordAt c' ⟨g.block, g.word + k⟩ = wordAt c ⟨g.block, g.word + k⟩) : Tidy c' := by
  intro g hg hno
  rcases hword g hg hno with hempty | ⟨hg0, hsame⟩
  · exact hempty
  · refine (h g hg0 fun hfile => hno ?_).congr fun k hk hk' => hsame k (.inr ⟨hk, hk'⟩)
    rcases hfile with rfl | ⟨-, hname⟩
    · exact .inl rfl
    · refine .inr ⟨hg, ?_⟩
      unfold Named
      rw [show c' g.block g.word = c g.block g.word from hsame 0 (.inl rfl)]
      exact hname

/-- **A change that acts on a file**: the blocks that become blocks of a directory hold zeros. -/
lemma actsOn (h : Tidy c) (hc : Consistent c) (ha : ActsOn f c c') (hf : IsFile c f)
    (hnew : ∀ b, DirBlock c' f b → DirBlock c f b ∨ Blank c' b) : Tidy c' := by
  refine h.of_words fun g hg hno => ?_
  have hblocks : ∀ d b, Dirent c d → DirBlock c' d b → DirBlock c d b ∨ Blank c' b := by
    intro d b hd hb
    by_cases hdf : d = f
    · exact hdf ▸ hnew b (hdf ▸ hb)
    · exact .inl ((ha.agrees hc hf.dirent hd hdf).dirBlock_iff.mp hb)
  rcases Dirent.of_update hblocks hg with hg0 | ⟨b, j, hj, hblank, rfl⟩
  · have hgf : g ≠ f := fun he => hno (ha.isFile hc hf.dirent (he ▸ hf) hg)
    refine .inr ⟨hg0, fun k hk => ?_⟩
    exact ha.field hc hf.dirent hg0 (x := .head k) (by omega : k < 64) (.inl hgf)
  · exact .inl (hblank.emptyFile hj)

/-- A word that is neither of the name nor of the block pointers. -/
lemma putOther {x : Field} (h : Tidy c) (hc : Consistent c) (hf : Dirent c f) (hx : HasField c f x)
    (hm : ¬ x.Meta) (h0 : x ≠ .head 0) : Tidy (putWord c (placeOf c f x) w) := by
  refine h.of_words fun g hg _ => .inr ?_
  have hg0 := (Consistent.entry_iff fun d hd => hc.agrees_of_field hd hf hx (.inr hm)).mp hg
  refine ⟨hg0, fun k hk => wordAt_putWord_of_ne fun he => ?_⟩
  obtain ⟨-, rfl⟩ := hc.place_inj hg0 hf (x := .head k) (by omega : k < 64) hx he
  rcases hk with rfl | hk
  · exact h0 rfl
  · exact hm hk

/-- A page is filled with zeros. -/
lemma fill (h : Tidy c) : Tidy (TwoLevel.fill c b 0) := by
  have hdirent : ∀ g, Dirent (TwoLevel.fill c b 0) g → Dirent c g := by
    intro g hg
    induction hg with
    | root => exact .root
    | child _ hv hj ih => exact .child ih (dirBlock_of_fill hv) hj
  refine h.of_words fun g hg _ => ?_
  by_cases hgb : g.block = b
  · refine .inl (emptyFile_iff.mpr fun k _ _ => ?_)
    subst hgb
    exact TwoLevel.fill_same _ _ _ _
  · exact .inr ⟨hdirent g hg, fun k _ => TwoLevel.fill_of_ne hgb⟩

end Tidy

/-! ## What `file_truncate` leaves behind -/

namespace CacheInv

/-- The structure of `f` after `file_clear_block`. -/
lemma fileClearBlock_head (hs : CacheInv s) (hf : Dirent s.content f) (hm : s.mapped f.block = true)
    (h : MosVolca.fileClearBlock s f bno = .ok (r, s')) (hk : k < 64) :
    wordAt s'.content ⟨f.block, f.word + k⟩ =
      if bno < ndirect ∧ k = 34 + bno then 0 else wordAt s.content ⟨f.block, f.word + k⟩ := by
  unfold MosVolca.fileClearBlock at h
  obtain ⟨⟨x, s1⟩, hwalk, h1⟩ := bind_eq_ok.mp h
  have hload := fileBlockWalk_loads hwalk
  cases x with
  | error e =>
    cases h1
    rw [if_neg, hload.content]
    rintro ⟨hd, -⟩
    unfold MosVolca.fileBlockWalk at hwalk
    rw [if_pos hd] at hwalk
    cases hwalk
  | ok ptr =>
    obtain ⟨hs1, -, hptr⟩ := hs.fileBlockWalk hf hm hwalk (fun ha => absurd ha Bool.false_ne_true)
    obtain ⟨hfield, rfl, hmap⟩ := hptr ptr rfl
    have hf1 : Dirent s1.content f := hload.content ▸ hf
    have hhead : HasField s1.content f (.head k) := hk
    have hself : bno < ndirect ∧ k = 34 + bno →
        (⟨f.block, f.word + k⟩ : WordPtr) = placeOf s1.content f (Slot.data bno).field := by
      rintro ⟨hd, rfl⟩
      rw [show (Slot.data bno).field = .head (34 + bno) from if_pos hd]
      rfl
    rw [← hload.content]
    simp only at h1
    split_ifs at h1 with hne
    · obtain ⟨-, rfl⟩ := pure_pair_inj h1
      rw [load_eq hmap] at hne ⊢
      have hc := hs1.consistent
      have hout : Outside s1.content ⟨f.block, f.word + k⟩ := hc.outside_placeOf hf1 hhead
      rw [hs1.clearSlot_content hf1 hfield hmap hne (hc.clearData hf1 hfield),
        hs1.clearSlot_word hf1 hfield hne hout]
      split_ifs with hcase
      · rw [hself hcase, wordAt_putWord_self]
      · refine wordAt_putWord_of_ne fun he => hcase ?_
        have hx := (hc.place_inj hf1 hf1 hhead hfield he).2
        simp only [Slot.field] at hx
        split_ifs at hx with hd
        exact ⟨hd, by rwa [Field.head.injEq] at hx⟩
    · obtain ⟨-, rfl⟩ := pure_pair_inj h1
      split_ifs with hcase
      · rw [hself hcase, ← load_eq hmap]
        exact not_not.mp hne
      · rfl

/-- The loop of `file_truncate` clears the block pointers in the structure that it comes to. -/
lemma truncateLoop_head {l : List ℕ} (hs : CacheInv s) (hf : Dirent s.content f)
    (hm : s.mapped f.block = true) (h : l.foldlM (fun s bno => do
      let (_, s) ← MosVolca.fileClearBlock s f bno
      pure s) s = .ok s') (hk : k < 64) :
    wordAt s'.content ⟨f.block, f.word + k⟩ =
      if ∃ bno ∈ l, bno < ndirect ∧ k = 34 + bno then 0
      else wordAt s.content ⟨f.block, f.word + k⟩ := by
  induction l generalizing s with
  | nil =>
    cases h
    simp
  | cons bno l ih =>
    rw [List.foldlM_cons] at h
    obtain ⟨s1, hstep, h1⟩ := bind_eq_ok.mp h
    obtain ⟨⟨r, s2⟩, hclear, h2⟩ := bind_eq_ok.mp hstep
    cases h2
    have hsh := hs.fileClearBlock hf hm hclear
    rw [ih hsh.inv hsh.self (hsh.mapped _ hm) h1, hs.fileClearBlock_head hf hm hclear hk]
    simp only [List.mem_cons, exists_eq_or_imp]
    by_cases hb : bno < ndirect ∧ k = 34 + bno
    · rw [if_pos hb, ite_self, if_pos (.inl hb)]
    · rw [if_neg hb]
      simp only [hb, false_or]

/-- The indirect block is set free: the words of the structure. -/
lemma clearIndirect_head (hs : CacheInv s) (hf : Dirent s.content f) (hm : s.mapped f.block = true)
    (hne : s.load f.indirect ≠ 0) (hk : k < 64) :
    wordAt ((MosVolca.freeBlock s (s.load f.indirect).toNat).store f.indirect 0).content
        ⟨f.block, f.word + k⟩ = if k = 44 then 0 else wordAt s.content ⟨f.block, f.word + k⟩ := by
  rw [load_eq (p := f.indirect) hm] at hne ⊢
  have hc := hs.consistent
  have hhead : HasField s.content f (.head k) := hk
  have hout : Outside s.content ⟨f.block, f.word + k⟩ := hc.outside_placeOf hf hhead
  have hfield : HasField s.content f Slot.indirect.field := Consistent.hasField_indirect
  have hcon := hs.clearSlot_content hf hfield hm hne (hc.clearIndirect hf)
  have hword := hs.clearSlot_word hf hfield hne hout
  refine (congrArg (wordAt · _) hcon).trans (hword.trans ?_)
  split_ifs with h44
  · subst h44
    exact wordAt_putWord_self _ _ _
  · refine wordAt_putWord_of_ne fun he => h44 ?_
    have hx := (hc.place_inj hf hf hhead hfield he).2
    rwa [show Slot.indirect.field = .head 44 from rfl, Field.head.injEq] at hx

/-- **The structure of `f` after `file_truncate`**: the size is written, `f_indirect` is cleared if
no block beyond the direct ones stays, and so are the pointers up to the old size. -/
theorem fileTruncate_head (hs : CacheInv s) (hf : Dirent s.content f) (hm : s.mapped f.block = true)
    (h : MosVolca.fileTruncate s f w = .ok s') (hk : k < 64)
    (hn : n = if w = 0 then 0 else w.toNat / 4096 + 1) :
    wordAt s'.content ⟨f.block, f.word + k⟩ =
      if k = 32 then w
      else if k = 44 ∧ n ≤ ndirect then 0
      else if 34 + n ≤ k ∧ k ≤ 34 + sizeBlocksOf s.content f ∧ k < 44 then 0
      else wordAt s.content ⟨f.block, f.word + k⟩ := by
  unfold MosVolca.fileTruncate at h
  rw [← hn] at h
  obtain ⟨s1, hloop, h1⟩ := bind_eq_ok.mp h
  have hloopHead : wordAt s1.content ⟨f.block, f.word + k⟩ =
      if 34 + n ≤ k ∧ k ≤ 34 + sizeBlocksOf s.content f ∧ k < 44 then 0
      else wordAt s.content ⟨f.block, f.word + k⟩ := by
    rw [hs.truncateLoop_head hf hm hloop hk, sizeBlocks_eq hm]
    refine if_congr ⟨?_, fun hcase => ⟨k - 34, ?_, ?_⟩⟩ rfl rfl
    · rintro ⟨bno, hmem, hd, rfl⟩
      obtain ⟨i, hi, rfl⟩ := List.mem_range'.mp hmem
      have hd : n + 1 * i < 10 := hd
      omega
    · exact List.mem_range'.mpr ⟨k - 34 - n, by omega, by omega⟩
    · exact ⟨(by omega : k - 34 < 10), by omega⟩
  obtain ⟨hs1, hf1, hm1⟩ : CacheInv s1 ∧ Dirent s1.content f ∧ s1.mapped f.block = true := by
    refine foldlM_invariant
      (P := fun t => CacheInv t ∧ Dirent t.content f ∧ t.mapped f.block = true)
      (fun bno _ t t' ⟨ht, hft, hmt⟩ hstep => ?_) ⟨hs, hf, hm⟩ hloop
    obtain ⟨⟨r, t1⟩, hclear, hr⟩ := bind_eq_ok.mp hstep
    cases hr
    have hsh := ht.fileClearBlock hft hmt hclear
    exact ⟨hsh.inv, hsh.self, hsh.mapped _ hmt⟩
  rw [pure_eq_ok, Except.ok.injEq] at h1
  rw [← h1, ← hloopHead]
  -- the size is written last
  have hsize : ∀ t : BlockCache, CacheInv t → Dirent t.content f → t.mapped f.block = true →
      wordAt (t.store f.size w).content ⟨f.block, f.word + k⟩ =
        if k = 32 then w else wordAt t.content ⟨f.block, f.word + k⟩ := by
    intro t ht hft hmt
    rw [content_store (p := f.size) hmt]
    split_ifs with h32
    · subst h32
      exact wordAt_putWord_self _ _ _
    · refine wordAt_putWord_of_ne fun he => h32 ?_
      have hx := (ht.consistent.place_inj hft hft (x := .head k) (y := .head 32) hk
        (by decide : 32 < 64) he).2
      rwa [Field.head.injEq] at hx
  by_cases hcase : n ≤ ndirect ∧ s1.load f.indirect ≠ 0
  · rw [if_pos hcase]
    have hsh := hs1.clearIndirect hf1 hm1 hcase.2
    rw [hsize _ hsh.inv hsh.self (hsh.mapped _ hm1), hs1.clearIndirect_head hf1 hm1 hcase.2 hk]
    simp only [hcase.1, and_true]
  · rw [if_neg hcase, hsize _ hs1 hf1 hm1]
    refine if_congr Iff.rfl rfl ?_
    split_ifs with h44
    · have h0 : s1.load f.indirect = 0 := by
        by_contra hne
        exact hcase ⟨h44.2, hne⟩
      rw [h44.1, ← h0, load_eq (p := f.indirect) hm1]
      rfl
    · rfl

end CacheInv

/-! ## Lookups and walks -/

lemma Loads.tidy (h : Loads s s') (ht : Tidy s.content) : Tidy s'.content := h.content ▸ ht

namespace CacheInv

/-- A block of a file. -/
lemma fileGetBlock_tidy {x : Except Word ℕ} (hs : CacheInv s) (ht : Tidy s.content)
    (hf : IsFile s.content f) (hm : s.mapped f.block = true)
    (h : MosVolca.fileGetBlock s f bno = .ok (x, s')) (hclean : MapClean s f bno) :
    Tidy s'.content := by
  obtain ⟨-, hg, -⟩ := hs.fileGetBlock hf.dirent hm h hclean
  have hadds := hs.fileGetBlock_addsBlock hf.dirent hm h hclean
  have hext := hs.fileGetBlock_extends hf.dirent hm h hclean
  refine ht.actsOn hs.consistent hext.toActsOn hf fun b hb => ?_
  obtain ⟨hdir, i, hi, hold⟩ := hb
  rw [hg.type f hf.dirent] at hdir
  rw [sizeBlocksOf, hg.size f hf.dirent] at hi
  rcases hadds.new f i b hf.dirent hold with hold | ⟨-, rfl, hblank⟩
  · exact .inl ⟨hdir, i, hi, hold⟩
  · exact .inr (hblank hdir hi)

end CacheInv

/-- **The walks** leave the structures without a name empty. -/
theorem Scans.tidy (h : Scans s s') (hs : CacheInv s) (ht : Tidy s.content) : Tidy s'.content := by
  induction h with
  | refl => exact ht
  | read _ hread ih => exact (readBlock_loads hread).1.tidy ih
  | block hw hd hdir _ hget hclean ih =>
    exact (hw.inv hs).fileGetBlock_tidy ih (ih.isFile_of_dir hd.dirent hdir) hd.mapped hget hclean
  | @dir t f r hw hf ih =>
    rw [content_store (p := f.dir) hf.mapped]
    exact ih.putOther (x := .head 45) (hw.inv hs).consistent hf.dirent (by decide : 45 < 64)
      (fun hx => absurd hx.2 (by decide)) (by decide)

/-! ## New files -/

namespace CacheInv

/-- A new size for a file: the blocks that become blocks of a directory hold zeros. -/
lemma storeSize_tidy (hs : CacheInv s) (ht : Tidy s.content) (hf : IsFile s.content f)
    (hm : s.mapped f.block = true)
    (hgrow : ∀ i b, wordAt s.content f.type = ftypeDir → sizeBlocksOf s.content f ≤ i →
      i < w.toNat / 4096 → Holds s.content f (.data i) b → Blank s.content b) :
    Tidy (s.store f.size w).content := by
  have hc := hs.consistent
  have hact := (hs.storeSize_trims (w := w) hf.dirent hm).actsOn
  rw [content_store (p := f.size) hm] at hact ⊢
  refine ht.actsOn hc hact hf fun b hb => ?_
  obtain ⟨hdir, i, hi, hold⟩ := hb
  have hold := (hc.holds_putHead (k := 32) hf.dirent hf.dirent (by decide)).mp hold
  have hdir := (hc.head_putSize hf.dirent hf.dirent (by decide) (by decide)).symm.trans hdir
  rw [sizeBlocksOf, wordAt_putWord_self] at hi
  by_cases hlt : i < sizeBlocksOf s.content f
  · exact .inl ⟨hdir, i, hlt, hold⟩
  · have hblank := hgrow i b hdir (Nat.le_of_not_lt hlt) hi hold
    exact .inr (hc.blank_putWord (k := 32) hf.dirent hold hblank)

/-- A directory grows by one block. -/
lemma dirGrow_tidy {x : Except Word FilePtr} (hs : CacheInv s) (ht : Tidy s.content)
    (hd : IsFile s.content dir) (hm : s.mapped dir.block = true)
    (hi : i = sizeBlocksOf s.content dir) (hle : i ≤ nindirect)
    (h : MosVolca.dirGrow s dir i = .ok (x, s')) (hclean : GrowClean s dir i) : Tidy s'.content := by
  have hsize := dirGrow_size hm hi hle
  have hbeyond : ∀ j b, wordAt s.content dir.type = ftypeDir → sizeBlocksOf s.content dir ≤ j →
      j < (s.load dir.size + 4096).toNat / 4096 → Holds s.content dir (.data j) b →
      Blank s.content b := by
    intro j b _ hge hlt hold
    have hj : j = i := by omega
    exact hclean.1 b (hj ▸ hold)
  have ht1 := hs.storeSize_tidy ht hd hm hbeyond
  obtain ⟨hs1, hd1⟩ := hs.setSize (w := s.load dir.size + 4096) hd.dirent hm hbeyond
  have hact := (hs.storeSize_trims (w := s.load dir.size + 4096) hd.dirent hm).actsOn
  have hfile1 := hact.isFile hs.consistent hd.dirent hd hd1
  unfold MosVolca.dirGrow at h
  obtain ⟨⟨y, s2⟩, hget, h1⟩ := bind_eq_ok.mp h
  have ht2 := hs1.fileGetBlock_tidy ht1 hfile1 hm hget hclean.2
  cases y with
  | error r =>
    cases h1
    exact ht2
  | ok blk =>
    cases h1
    exact ht2

/-- `dir_alloc_file`. -/
lemma dirAllocFile_tidy {x : Except Word FilePtr} (hs : CacheInv s) (ht : Tidy s.content)
    (hd : InCache s dir) (hdir : wordAt s.content dir.type = ftypeDir)
    (h : MosVolca.dirAllocFile s dir = .ok (x, s'))
    (hclean : AllocFileClean s dir (s.sizeBlocks dir) 0) : Tidy s'.content := by
  obtain ⟨t, ht', hg, hw, hcases⟩ := hs.dirAllocFrom_cases hd.dirent hd.mapped hdir
    (by rw [sizeBlocks_eq hd.mapped]; omega) (Nat.zero_le _) h hclean
  have ht1 := hw.tidy hs ht
  rcases hcases with ⟨rfl, -⟩ | ⟨hle, hgrow, hgc⟩
  · exact ht1
  · have hfile := hw.keepsFiles hs dir (ht.isFile_of_dir hd.dirent hdir)
    exact ht'.dirGrow_tidy ht1 hfile (hg.mapped _ hd.mapped) rfl hle hgrow hgc

/-- The words of the structure of `f` from the size on stay if its name is written. -/
lemma setName_head (hs : CacheInv s) (hf : InCache s f) (hlen : name.length < maxnamelen)
    (hg : Dirent s.content g) (hk : k < 64) (hne : g = f → 32 ≤ k) :
    wordAt (s.setName f name).content ⟨g.block, g.word + k⟩ =
      wordAt s.content ⟨g.block, g.word + k⟩ := by
  refine hs.setName_place hf.dirent hf.mapped hlen hg (x := .head k) hk fun he m hm hx => ?_
  rw [Field.head.injEq] at hx
  have := hne he
  omega

/-- A name is written. -/
lemma setName_tidy (hs : CacheInv s) (ht : Tidy s.content) (hf : InCache s f)
    (hlen : name.length < maxnamelen) (hfile : IsFile (s.setName f name).content f) :
    Tidy (s.setName f name).content := by
  refine ht.of_words fun g hg hno => .inr ?_
  have hg0 := (Consistent.entry_iff fun d hd => hs.setName_agrees hf.dirent hf.mapped hlen hd).mp hg
  refine ⟨hg0, fun k hk => hs.setName_head hf hlen hg0 (by omega) fun he => ?_⟩
  exact absurd (he ▸ hfile) hno

/-- A file becomes a directory. -/
lemma setType_tidy (hs : CacheInv s) (ht : Tidy s.content) (hf : InCache s f)
    (hfile : IsFile s.content f) (hclean : TypeClean s f) :
    Tidy (s.store f.type ftypeDir).content := by
  have hc := hs.consistent
  have hfield : HasField s.content f (.head 33) := (by decide : 33 < 64)
  have hmap := sameMap_putWord (w := ftypeDir) (hc.outside_placeOf hf.dirent hfield)
  rw [content_store (p := f.type) hf.mapped]
  have hholds : ∀ q b, Holds (putWord s.content f.type ftypeDir) f q b → Holds s.content f q b :=
    fun q b => (hc.holds_putHead (k := 33) hf.dirent hf.dirent (by decide)).mp
  have hact : ActsOn f s.content (putWord s.content f.type ftypeDir) := by
    refine ⟨hmap.nblocks, fun p _ _ hmeta => wordAt_putWord_of_ne ?_,
      fun b hb => .inl (hmap.isFree_iff.mp hb), fun q b hq => .inl (hholds q b hq)⟩
    rintro rfl
    exact hmeta ⟨.head 33, ⟨by decide, by decide⟩, hfield, rfl⟩
  refine ht.actsOn hc hact hfile fun b hb => .inr ?_
  obtain ⟨-, i, hi, hold⟩ := hb
  have hsize : wordAt (putWord s.content f.type ftypeDir) f.size = wordAt s.content f.size := by
    refine wordAt_putWord_of_ne fun he => ?_
    exact absurd (hc.place_inj hf.dirent hf.dirent (x := .head 32) (by decide : 32 < 64) hfield he).2
      (by decide)
  rw [sizeBlocksOf, hsize] at hi
  have hold := hholds _ _ hold
  exact hc.blank_putWord (k := 33) hf.dirent hold (hclean i b hi hold)

/-- **`file_create`** makes an empty regular file. -/
theorem fileCreate_tidy {x : Option FilePtr} (hs : CacheInv s) (ht : Tidy s.content)
    (hp : (0 : Char8) ∉ path) (h : MosVolca.fileCreate s depth path = .ok (r, x, s'))
    (hclean : CreateClean s depth path) :
    Tidy s'.content ∧ ∀ f, x = some f → EmptyFile s'.content f := by
  obtain ⟨-, hfiles⟩ := hs.fileCreate_keepsFiles hp h hclean
  unfold MosVolca.fileCreate at h
  obtain ⟨⟨y, s1⟩, hwalk, h1⟩ := bind_eq_ok.mp h
  obtain ⟨hs1, -, hres, hw, -⟩ := hs.walkPath hwalk hclean.1
  have ht1 := hw.tidy hs ht
  have hnone : ∀ {a : Word} {s'}, (Except.ok (a, none, s1) : Kernel _) = .ok (r, x, s') →
      Tidy s'.content ∧ ∀ f, x = some f → EmptyFile s'.content f := by
    intro a s' he
    cases he
    exact ⟨ht1, fun f hf => by cases hf⟩
  simp only at h1
  by_cases hcode : y.code = 0
  · rw [if_pos hcode] at h1
    exact hnone h1
  rw [if_neg hcode] at h1
  split at h1
  · exact hnone h1
  rename_i dir hdir
  by_cases hnf : y.code ≠ -eNotFound
  · rw [if_pos hnf] at h1
    exact hnone h1
  rw [if_neg hnf] at h1
  obtain ⟨⟨z, s2⟩, halloc, h2⟩ := bind_eq_ok.mp h1
  have hd := hres.dir dir hdir
  have htype := hres.type hcode dir hdir
  have hac := hclean.2 y s1 dir hwalk (by simpa using hnf) hdir
  obtain ⟨hs2, -, hfound⟩ := hs1.dirAllocFile hd.dirent hd.mapped htype halloc hac
  obtain ⟨hsame, hnew⟩ := hs1.dirAllocFile_names hd.dirent hd.mapped htype halloc hac
  have ht2 := hs1.dirAllocFile_tidy ht1 hd htype halloc hac
  cases z with
  | error e =>
    cases h2
    exact ⟨ht2, fun f hf => by cases hf⟩
  | ok f =>
    cases h2
    obtain ⟨hfd, hfm⟩ := hfound f rfl
    obtain ⟨hin, hno⟩ := hnew f rfl
    have hf2 : InCache s2 f := ⟨hfd, hfm⟩
    refine ⟨hs2.setName_tidy ht2 hf2 hres.lastelem (hfiles f rfl), fun g hg => ?_⟩
    cases hg
    -- the structure had no name, and is not the root
    have hnot : ¬ IsFile s2.content f := by
      rintro (rfl | ⟨-, hname⟩)
      · exact hin.ne_root rfl
      · exact hno hname
    exact (ht2 f hfd hnot).congr fun k hk hk' =>
      hs2.setName_head hf2 hres.lastelem hfd (by omega) fun _ => hk

end CacheInv

/-! ## Removals and sizes -/

/-- The file that is removed is regular, and has no direct block beyond its size. -/
def RemovesEmpty (s : BlockCache) (depth : ℕ) (path : List Char8) : Prop :=
  ∀ w s1 f, walkPath s path depth = .ok (w, s1) → w.file = some f →
    wordAt s1.content f.type = ftypeReg ∧
      ∀ i < ndirect, sizeBlocksOf s1.content f < i → wordAt s1.content (f.direct i) = 0

/-- `file_flush` of a directory that need not be in the cache. -/
lemma fileFlushDir_tidy (ht : Tidy s.content) (h : fileFlushDir s f = .ok s') : Tidy s'.content := by
  unfold fileFlushDir at h
  split_ifs at h
  · cases h
    exact ht
  · split at h
    · cases h
    · obtain ⟨s1, htouch, h1⟩ := bind_eq_ok.mp h
      refine (fileFlush_loads h1).tidy ?_
      rcases touchBlock_spec htouch with ⟨-, rfl⟩ | ⟨-, hfill⟩
      · exact ht
      · rw [hfill.content]
        exact ht.fill

namespace CacheInv

/-- **The structure of a removed file** is empty exactly if the file was regular and had no direct
block beyond its size. -/
theorem truncated_emptyFile_iff (hs : CacheInv s) (hf : Dirent s.content f)
    (hm : s.mapped f.block = true) (h : MosVolca.fileTruncate s f 0 = .ok s') :
    EmptyFile s'.content f ↔ wordAt s.content f.type = ftypeReg ∧
      ∀ i < ndirect, sizeBlocksOf s.content f < i → wordAt s.content (f.direct i) = 0 := by
  have hhead := fun k (hk : k < 64) => hs.fileTruncate_head hf hm h hk (if_pos rfl).symm
  have htype : wordAt s'.content f.type = wordAt s.content f.type := by
    have h33 := hhead 33 (by decide)
    rwa [if_neg (by decide), if_neg (fun hc => absurd hc.1 (by decide)),
      if_neg fun hc => absurd hc.1 (by decide)] at h33
  constructor
  · intro hempty
    refine ⟨htype.symm.trans hempty.type, fun i hi hlt => ?_⟩
    have hi' : i < 10 := hi
    have hword := hhead (34 + i) (by omega)
    rw [if_neg (by omega), if_neg (by omega), if_neg (by omega)] at hword
    exact hword.symm.trans (hempty.direct i hi)
  · rintro ⟨hreg, hbeyond⟩
    refine emptyFile_iff.mpr fun k hk hk' => ?_
    rcases (by omega : k = 33 ∨ k ≠ 33) with rfl | hne
    · exact htype.trans hreg
    · rw [hhead k (by omega)]
      split_ifs with h32 h44 hdir
      · rfl
      · rfl
      · rfl
      · have hlt : k < 44 := by
          by_contra hc
          exact h44 ⟨by omega, Nat.zero_le _⟩
        have h0 := hbeyond (k - 34) (by unfold ndirect; omega) (by omega)
        rwa [FilePtr.direct, show 34 + (k - 34) = k by omega] at h0

/-- **`file_remove`** of a regular file. -/
theorem fileRemove_tidy (hs : CacheInv s) (ht : Tidy s.content)
    (h : MosVolca.fileRemove s depth path = .ok (r, s')) (hclean : PathClean s path depth)
    (hempty : RemovesEmpty s depth path) : Tidy s'.content := by
  unfold MosVolca.fileRemove at h
  obtain ⟨⟨y, s1⟩, hwalk, h1⟩ := bind_eq_ok.mp h
  obtain ⟨hs1, -, hres, hw, -⟩ := hs.walkPath hwalk hclean
  have ht1 := hw.tidy hs ht
  simp only at h1
  split_ifs at h1 with hcode
  · cases h1
    exact ht1
  obtain ⟨f, hfile, h2⟩ := bind_eq_ok.mp h1
  have hfw : y.file = some f := by
    cases hy : y.file with
    | none =>
      rw [hy] at hfile
      cases hfile
    | some g =>
      rw [hy] at hfile
      cases hfile
      rfl
  have hf := hres.file f hfw
  obtain ⟨s2, htrunc, h3⟩ := bind_eq_ok.mp h2
  obtain ⟨hs2, hd2, -, hm2⟩ := hs1.fileTruncate hf.dirent hf.mapped (by simp) htrunc
  have htrim := hs1.fileTruncate_trims hf.dirent hf.mapped htrunc
  have hself := (hs1.truncated_emptyFile_iff hf.dirent hf.mapped htrunc).mpr (hempty y s1 f hwalk hfw)
  -- no directory has a new block
  have hold : ∀ g, Dirent s2.content g → Dirent s1.content g := by
    intro g hg
    induction hg with
    | root => exact .root
    | @child d b j hd hb hj ih =>
      refine .child ih ?_ hj
      by_cases hdf : d = f
      · have htd := hb.1
        rw [hdf, hself.type] at htd
        exact absurd htd (by decide)
      · exact (htrim.actsOn.agrees hs1.consistent hf.dirent ih hdf).dirBlock_iff.mp hb
  have hf2 : InCache s2 f := ⟨hd2, hm2 _ hf.mapped⟩
  obtain ⟨-, hsame⟩ := hs2.setNameByte (c := 0) (k := 0) hf2 (by decide)
  have hcon : (s2.setNameByte f 0 0).content = putWord s2.content (placeOf s2.content f (.head 0))
      (BlockCache.setByte (s2.load ⟨f.block, f.word + 0 / 4⟩) (0 % 4) 0) :=
    content_store (p := ⟨f.block, f.word + 0 / 4⟩) hf2.mapped
  -- the first byte of the name is no other word
  have hword : ∀ g k, Dirent s2.content g → k < 64 → (g ≠ f ∨ k ≠ 0) →
      wordAt (s2.setNameByte f 0 0).content ⟨g.block, g.word + k⟩ =
        wordAt s2.content ⟨g.block, g.word + k⟩ := by
    intro g k hg hk hne
    rw [hcon]
    refine wordAt_putWord_of_ne fun he => ?_
    obtain ⟨rfl, hx⟩ := hs2.consistent.place_inj hg hd2 (x := .head k) (y := .head 0) hk
      (by decide : 0 < 64) he
    rw [Field.head.injEq] at hx
    exact hne.elim (fun h => h rfl) fun h => h hx
  have ht3 : Tidy (s2.setNameByte f 0 0).content := by
    refine ht1.of_words fun g hg _ => ?_
    have hg2 := hsame.dirent_iff.mp hg
    by_cases hgf : g = f
    · subst hgf
      exact .inl (hself.congr fun k hk hk' => hword g k hg2 (by omega) (.inr (by omega)))
    · refine .inr ⟨hold g hg2, fun k hk => (hword g k hg2 (by omega) (.inl hgf)).trans ?_⟩
      exact htrim.actsOn.field hs1.consistent hf.dirent (hold g hg2) (x := .head k)
        (by omega : k < 64) (.inl hgf)
  obtain ⟨s4, hflush, h4⟩ := bind_eq_ok.mp h3
  obtain ⟨s5, hdir, h5⟩ := bind_eq_ok.mp h4
  cases h5
  exact fileFlushDir_tidy ((fileFlush_loads hflush).tidy ht3) hdir

/-- **`file_set_size`** of a file. -/
theorem fileSetSize_tidy (hs : CacheInv s) (ht : Tidy s.content) (hf : InCache s f)
    (hfile : IsFile s.content f) (hgrow : SizeClean s f w)
    (h : MosVolca.fileSetSize s f w = .ok (r, s')) : Tidy s'.content := by
  have hfinish : ∀ {s1 : BlockCache}, Tidy (s1.store f.size w).content →
      (do let s ← MosVolca.fileFlushDir (s1.store f.size w) f; pure (0, s)) = .ok (r, s') →
      Tidy s'.content := by
    intro s1 ht1 h1
    obtain ⟨s2, hflush, h2⟩ := bind_eq_ok.mp h1
    cases h2
    exact fileFlushDir_tidy ht1 hflush
  have hload : s.load f.size = wordAt s.content f.size := load_eq (p := f.size) hf.mapped
  unfold MosVolca.fileSetSize at h
  simp only at h
  split_ifs at h with hlt
  · have hlt : w.toNat < (s.load f.size).toNat := hlt
    obtain ⟨s1, htrunc, h1⟩ := bind_eq_ok.mp h
    obtain ⟨hs1, hd1, hw, hm1⟩ := hs.fileTruncate hf.dirent hf.mapped hlt.le htrunc
    have htrim := hs.fileTruncate_trims hf.dirent hf.mapped htrunc
    have htype : wordAt s1.content f.type = wordAt s.content f.type := by
      have hhead := hs.fileTruncate_head (k := 33) hf.dirent hf.mapped htrunc (by decide) rfl
      rwa [if_neg (by decide), if_neg (fun hc => absurd hc.1 (by decide)),
        if_neg fun hc => by omega] at hhead
    have ht1 : Tidy s1.content := by
      refine ht.actsOn hs.consistent htrim.actsOn hfile fun b hb => .inl ?_
      obtain ⟨hdir, i, hi, hold⟩ := hb
      refine ⟨htype.symm.trans hdir, i, hi.trans_le ?_, htrim.held _ _ hold⟩
      rw [sizeBlocksOf, hw, sizeBlocksOf]
      exact Nat.div_le_div_right (hload ▸ hlt.le)
    have hfile1 := htrim.actsOn.isFile hs.consistent hf.dirent hfile hd1
    refine hfinish (hs1.storeSize_tidy ht1 hfile1 (hm1 _ hf.mapped) fun i b _ hge hi _ => ?_) h1
    rw [sizeBlocksOf, hw] at hge
    omega
  · exact hfinish (hs.storeSize_tidy ht hfile hf.mapped hgrow) h

end CacheInv

/-! ## Requests -/

/-- **The event leaves the structures without a name empty**: a removed file is regular and has no
block beyond its size, the files whose blocks and sizes are changed have not been removed, and a path
is a string. -/
def Recycles (depth : ℕ) (s : FileServer) : FsEvent → Prop
  | .request _ (.openFile path _) => (0 : Char8) ∉ path
  | .request _ (.map fileid _) | .request _ (.setSize fileid _) =>
    OpenFile s fileid fun f => IsFile s.cache.content f
  | .request _ (.remove path) => RemovesEmpty s.cache depth path
  | .request _ (.close _) | .request _ (.dirty _ _) | .request _ .sync
  | .request _ (.openat _ _ _) => True
  | .store _ _ _ | .share _ _ | .memory _ => True

section Requests

variable {s s' : FileServer} {t t' : BlockCache} {envid fileid omode : Word} {o : Option ℕ}
  {file : Option FilePtr}

/-- The file could not be opened. -/
lemma openMissing_tidy {r' : Word} {x : Option FilePtr} (hs : CacheInv t) (ht : Tidy t.content)
    (hp : (0 : Char8) ∉ path) (h : openMissing t depth path omode r none = .ok (r', x, t'))
    (hclean : omode &&& oCreat ≠ 0 ∨ omode &&& oMkdir ≠ 0 → CreateClean t depth path ∧
      (omode &&& oCreat = 0 → ∀ r f c1, fileCreate t depth path = .ok (r, some f, c1) →
        TypeClean c1 f)) : Tidy t'.content := by
  unfold openMissing at h
  by_cases hcr : omode &&& oCreat = 0
  · rw [if_neg (not_not_intro hcr)] at h
    by_cases hmk : omode &&& oMkdir = 0
    · rw [if_neg (not_not_intro hmk)] at h
      cases h
      exact ht
    · rw [if_pos hmk] at h
      obtain ⟨hcc, htype⟩ := hclean (.inr hmk)
      obtain ⟨⟨r1, y, c1⟩, hcreate, h1⟩ := bind_eq_ok.mp h
      cases y with
      | none => cases h1
      | some f =>
        cases h1
        obtain ⟨hs1, -, hf⟩ := hs.fileCreate hcreate hcc
        obtain ⟨ht1, -⟩ := hs.fileCreate_tidy ht hp hcreate hcc
        obtain ⟨-, hfile⟩ := hs.fileCreate_keepsFiles hp hcreate hcc
        exact hs1.setType_tidy ht1 (hf f rfl) (hfile f rfl) (htype hcr _ f c1 hcreate)
  · rw [if_pos hcr] at h
    obtain ⟨⟨r1, y, c1⟩, hcreate, h1⟩ := bind_eq_ok.mp h
    cases h1
    exact (hs.fileCreate_tidy ht hp hcreate (hclean (.inl hcr)).1).1

/-- `serve_open`. -/
lemma serveOpen_tidy (hs : ServerInv s) (ht : Tidy s.cache.content)
    (h : serveOpen s depth envid path omode = .ok s') (hp : (0 : Char8) ∉ path)
    (hclean : OpenClean (openAlloc s).2.2.cache depth path omode) : Tidy s'.cache.content := by
  have hs1 := hs.openAlloc.cache
  rw [← openAlloc_content s] at ht
  unfold serveOpen at h
  simp only [sendError_cache] at h
  obtain ⟨⟨r, f, c⟩, hopen, h1⟩ := bind_eq_ok.mp h
  obtain ⟨hc, -, -, hnone⟩ := ServerInv.fileOpen hs1 hopen hclean.1
  have htc : Tidy c.content := by
    unfold fileOpen at hopen
    obtain ⟨⟨x, c1⟩, hwalk, h2⟩ := bind_eq_ok.mp hopen
    cases h2
    obtain ⟨-, -, -, hw, -⟩ := hs1.walkPath hwalk hclean.1
    exact hw.tidy hs1 ht
  simp only at h1
  split_ifs at h1 with hr
  · obtain ⟨⟨r', f', c'⟩, hmiss, h2⟩ := bind_eq_ok.mp h1
    obtain rfl := hnone hr
    have htc' := openMissing_tidy hc htc hp hmiss (hclean.2 r none c hopen hr)
    simp only at h2
    split_ifs at h2
    · cases h2
      exact htc'
    · rw [finishOpen_cache h2]
      exact htc'
  · rw [pure_eq_ok, ok_bind] at h1
    simp only [if_neg hr] at h1
    rw [finishOpen_cache h1]
    exact htc

/-- `serve_openat`. -/
lemma serveOpenat_tidy (hs : ServerInv s) (ht : Tidy s.cache.content)
    (h : serveOpenat s envid fileid path omode = .ok s')
    (hclean : OpenFile (openAlloc s).2.2 fileid fun dir =>
      ElemsClean (openAlloc s).2.2.cache dir (pathElems path)) : Tidy s'.cache.content := by
  have hs1 := hs.openAlloc
  rw [← openAlloc_content s] at ht
  have hlook : ∀ r, openLookup (sendError (openAlloc s).2.2 envid r) fileid =
      openLookup (openAlloc s).2.2 fileid := by
    intro r
    unfold openLookup
    rw [sendError_opentab]
  unfold serveOpenat at h
  simp only [hlook, sendError_cache, sendError_opentab] at h
  split at h
  · cases h
    show Tidy (sendError (openAlloc s).2.2 envid (openAlloc s).1).cache.content
    rw [sendError_cache]
    exact ht
  · rename_i i hi
    obtain ⟨dir, hderef, h1⟩ := bind_eq_ok.mp h
    obtain ⟨⟨r, f, c⟩, hopen, h2⟩ := bind_eq_ok.mp h1
    obtain ⟨hdir, helems⟩ := hs1.openFile hclean hi hderef
    unfold fileOpenat walkPathAt at hopen
    obtain ⟨⟨x, c1⟩, hwalk, h3⟩ := bind_eq_ok.mp hopen
    cases h3
    obtain ⟨-, -, -, hw, -⟩ :=
      hs1.cache.walkElems hdir (fun g hg => absurd hg (by simp)) hwalk helems
    have htc := hw.tidy hs1.cache ht
    simp only at h2
    split_ifs at h2
    · cases h2
      exact htc
    · rw [finishOpen_cache h2]
      exact htc

/-- A request on an open file. -/
lemma serveFile_tidy {work : FileServer → FilePtr → Kernel FileServer} (ht : Tidy s.cache.content)
    (h : serveFile s envid fileid work = .ok s')
    (hwork : ∀ i f, openLookup s fileid = some i → derefFile (s.opentab i).file = .ok f →
      work s f = .ok s' → Tidy s'.cache.content) : Tidy s'.cache.content := by
  unfold serveFile at h
  split at h
  · cases h
    exact ht
  · rename_i i hi
    obtain ⟨f, hderef, h1⟩ := bind_eq_ok.mp h
    exact hwork i f hi hderef h1

lemma serveBlock_tidy {work : FileServer → FilePtr → Kernel FileServer} (ht : Tidy s.cache.content)
    (h : serveBlock s envid fileid bno work = .ok s')
    (hwork : ∀ i f, openLookup s fileid = some i → derefFile (s.opentab i).file = .ok f →
      work s f = .ok s' → Tidy s'.cache.content) : Tidy s'.cache.content := by
  unfold serveBlock at h
  split_ifs at h
  · cases h
    exact ht
  · exact serveFile_tidy ht h hwork

/-- **One request.** -/
theorem Tidy.request {req : FsRequest} (ht : Tidy s.cache.content) (hs : ServerInv s)
    (h : serveRequest s depth envid req = .ok s') (hharm : Harmless depth s (.request envid req))
    (hrec : Recycles depth s (.request envid req)) : Tidy s'.cache.content := by
  cases req with
  | openFile path omode => exact serveOpen_tidy hs ht h hrec hharm
  | openat dirFileid path omode => exact serveOpenat_tidy hs ht h hharm
  | map fileid offset =>
    simp only [serveRequest, serveMap] at h
    refine serveBlock_tidy ht h fun i f hi hf hw => ?_
    obtain ⟨hin, hmap⟩ := hs.openFile hharm hi hf
    obtain ⟨-, hfile⟩ := hs.openFile hrec hi hf
    obtain ⟨⟨x, c⟩, hget, h1⟩ := bind_eq_ok.mp hw
    have htc := hs.cache.fileGetBlock_tidy ht hfile hin.mapped hget hmap
    cases x with
    | error r =>
      cases h1
      exact htc
    | ok blk =>
      cases h1
      exact htc
  | setSize fileid size =>
    simp only [serveRequest, serveSetSize] at h
    refine serveFile_tidy ht h fun i f hi hf hw => ?_
    obtain ⟨hin, hsize⟩ := hs.openFile hharm hi hf
    obtain ⟨-, hfile⟩ := hs.openFile hrec hi hf
    obtain ⟨⟨r, c⟩, hset, h1⟩ := bind_eq_ok.mp hw
    cases h1
    exact hs.cache.fileSetSize_tidy ht hin hfile hsize hset
  | close fileid =>
    simp only [serveRequest, serveClose] at h
    refine serveFile_tidy ht h fun i f hi hf hw => ?_
    obtain ⟨c, hclose, h1⟩ := bind_eq_ok.mp hw
    cases h1
    unfold fileClose at hclose
    obtain ⟨c1, hflush, h2⟩ := bind_eq_ok.mp hclose
    obtain ⟨c2, hdir, h3⟩ := bind_eq_ok.mp h2
    exact (writeBlock_loads h3).2.2.tidy (fileFlushDir_tidy ((fileFlush_loads hflush).tidy ht) hdir)
  | dirty fileid offset =>
    simp only [serveRequest, serveDirty] at h
    refine serveBlock_tidy ht h fun i f hi hf hw => ?_
    obtain ⟨⟨r, c⟩, hdirty, h1⟩ := bind_eq_ok.mp hw
    cases h1
    exact (fileDirty_loads hdirty).tidy ht
  | remove path =>
    obtain ⟨⟨r, c⟩, hrem, h1⟩ := bind_eq_ok.mp h
    cases h1
    exact hs.cache.fileRemove_tidy ht hrem hharm hrec
  | sync =>
    obtain ⟨c, hsync, h1⟩ := bind_eq_ok.mp h
    cases h1
    exact (fsSync_loads hsync).tidy ht

/-- **One event.** -/
theorem Tidy.step {e : FsEvent} (ht : Tidy s.cache.content) (hs : ServerInv s)
    (h : fsStep depth s e = .ok s') (hharm : Harmless depth s e) (hrec : Recycles depth s e) :
    Tidy s'.cache.content := by
  cases e with
  | request envid req => exact ht.request hs h hharm hrec
  | share i n =>
    cases h
    exact ht
  | store b i w =>
    simp only [fsStep] at h
    split_ifs at h with hm
    cases h
    have hblock : PlainBlock s.cache.content b := hharm
    have hcon : (s.cache.store ⟨b, i⟩ w).content = putWord s.cache.content ⟨b, i⟩ w :=
      content_store hm
    show Tidy (s.cache.store ⟨b, i⟩ w).content
    rw [hcon]
    refine ht.of_words fun g hg _ => .inr ?_
    have hg0 := (Consistent.entry_iff fun f hf => hblock.agrees hf).mp hg
    exact ⟨hg0, fun k _ => wordAt_putWord_of_ne fun he =>
      (hblock.2 g hg0).1 (congrArg WordPtr.block he)⟩
  | memory grants =>
    cases h
    exact ht

/-- A run. -/
theorem Tidy.run {events : List FsEvent} (ht : Tidy s.cache.content) (hs : ServerInv s)
    (h : fsRun depth s events = .ok s') (hharm : HarmlessRun depth s events)
    (hrec : RunAll (Recycles depth) depth s events) : Tidy s'.cache.content := by
  induction events generalizing s with
  | nil =>
    cases h
    exact ht
  | cons e events ih =>
    rw [fsRun, List.foldlM_cons] at h
    obtain ⟨s1, hstep, h1⟩ := bind_eq_ok.mp h
    exact ih (ht.step hs hstep hharm.1 hrec.1) (hs.step hstep hharm.1) h1 (hharm.2 s1 hstep)
      (hrec.2 s1 hstep)

end Requests

/-! ## Runs -/

/-- A new file is an empty regular file. -/
def CreatesEmpty (s : BlockCache) : Prop :=
  ∀ depth path f s', (0 : Char8) ∉ path → CreateClean s depth path →
    fileCreate s depth path = .ok (0, some f, s') → EmptyFile s'.content f

lemma Tidy.createsEmpty (ht : Tidy s.content) (hs : CacheInv s) : CreatesEmpty s :=
  fun _ _ f _ hp hclean h => (hs.fileCreate_tidy ht hp h hclean).2 f rfl

/-- **A new file is new.** From a consistent image whose structures without a name are empty, after
any run of harmless events that leave them so, the file that `file_create` makes is an empty regular
file; and so it is where `serve_open` calls `file_create`, after `file_open`. -/
theorem emptyFile_of_run {disk : Blocks} {grants : ℕ → Bool} {cache : BlockCache} {t : FileServer}
    {events : List FsEvent} (hd : Consistent disk) (htidy : Tidy disk)
    (hinit : fsInit (BlockCache.off disk grants) = .ok cache)
    (h : fsRun depth (serveInit cache) events = .ok t)
    (hharm : HarmlessRun depth (serveInit cache) events)
    (hrec : RunAll (Recycles depth) depth (serveInit cache) events) :
    CreatesEmpty t.cache ∧ ∀ depth path r x c, PathClean (openAlloc t).2.2.cache path depth →
      fileOpen (openAlloc t).2.2.cache depth path = .ok (r, x, c) → CreatesEmpty c := by
  have hs : ServerInv (serveInit cache) := ⟨CacheInv.fsInit hd hinit, fun i f hf => absurd hf (by
    simp [serveInit])⟩
  have ht0 : Tidy (serveInit cache).cache.content := by
    have hag : ∀ f, Dirent disk f → Agrees disk cache.content f := fun f hf x _ hx =>
      congrFun (fsInit_content hinit (hd.place_ne_zero hf hx)) _
    refine htidy.of_words fun g hg _ => .inr ?_
    have hg0 := (Consistent.entry_iff hag).mp hg
    exact ⟨hg0, fun k hk => congrFun (fsInit_content hinit
      (hd.place_ne_zero hg0 (x := .head k) (by omega : k < 64))) _⟩
  have ht := ht0.run hs h hharm hrec
  have hst := hs.run h hharm
  refine ⟨ht.createsEmpty hst.cache, fun depth path r x c hclean hopen => ?_⟩
  obtain ⟨hc, -⟩ := ServerInv.fileOpen hst.openAlloc.cache hopen hclean
  unfold fileOpen at hopen
  obtain ⟨⟨y, c1⟩, hwalk, h1⟩ := bind_eq_ok.mp hopen
  cases h1
  rw [← openAlloc_content t] at ht
  obtain ⟨-, -, -, hw, -⟩ := hst.openAlloc.cache.walkPath hwalk hclean
  exact (hw.tidy hst.openAlloc.cache ht).createsEmpty hc

/-! ## A removed directory -/

/-- The other structures in the root of the image are empty. -/
lemma twoFiles_tidy : Tidy twoFiles := by
  intro f hf hno
  rcases twoFiles_flat.dirent hf with rfl | ⟨j, hj, rfl⟩
  · exact absurd (.inl rfl) hno
  · have hempty : ∀ j < 16, j ≠ 0 → j ≠ 1 → ∀ k, 32 ≤ k → k ≤ 44 →
        wordAt twoFiles ⟨3, 64 * j + k⟩ = 0 := by
      intro j hj h0 h1 k hk hk'
      show twoFiles 3 (64 * j + k) = 0
      unfold twoFiles
      simp only
      split_ifs
      all_goals first | omega | rfl
    have hname : ∀ j, j = 0 ∨ j = 1 → Named twoFiles (FilePtr.entry 3 j) := by
      rintro j (rfl | rfl)
      · exact (by decide : (twoFiles 3 0).setWidth 8 ≠ (0 : Char8))
      · exact (by decide : (twoFiles 3 64).setWidth 8 ≠ (0 : Char8))
    have hnot : j ≠ 0 ∧ j ≠ 1 := by
      by_contra hc
      exact hno (.inr ⟨hf, hname j (by omega)⟩)
    exact emptyFile_iff.mpr (hempty j hj hnot.1 hnot.2)

/-- What the removal of `a` needs: whether the file is regular and has no block beyond its size. -/
def removedIsPlain : Kernel Bool := do
  let cache ← fsInit (BlockCache.off twoFiles fun _ => true)
  let (w, s) ← walkPath cache [0x2F, 0x61] 1
  let f ← derefFile w.file
  pure (wordAt s.content f.type == ftypeReg && (List.range ndirect).all fun i =>
    !decide (sizeBlocksOf s.content f < i) || wordAt s.content (f.direct i) == 0)

/-- A creation after the removal of `a`. -/
theorem emptyFile_of_run_remove : ∃ cache t,
    fsInit (BlockCache.off twoFiles fun _ => true) = .ok cache ∧
      fsRun 1 (serveInit cache) [.request 7 (.remove [0x2F, 0x61])] = .ok t ∧ CreatesEmpty t.cache := by
  obtain ⟨cache, t, hinit, hrun, hharm⟩ := removeRun_checks
  refine ⟨cache, t, hinit, hrun,
    (emptyFile_of_run twoFiles_consistent twoFiles_tidy hinit hrun hharm ⟨?_, fun _ _ => trivial⟩).1⟩
  intro w s f hwalk hfile
  have heval : removedIsPlain = .ok true := by rfl
  unfold removedIsPlain at heval
  have hwalk : walkPath cache [0x2F, 0x61] 1 = .ok (w, s) := hwalk
  rw [hinit, ok_bind, hwalk, ok_bind] at heval
  simp only [hfile, derefFile, pure_eq_ok, ok_bind, Except.ok.injEq, Bool.and_eq_true, beq_iff_eq,
    List.all_eq_true, List.mem_range, Bool.or_eq_true, Bool.not_eq_true', decide_eq_false_iff_not]
    at heval
  exact ⟨heval.1, fun i hi hlt => (heval.2 i hi).resolve_left fun hno => hno hlt⟩

/-- A directory `d` is made and removed, and a file `d` is made: the result, and the type of it. -/
def recycledDir : Kernel (Word × Bool) := do
  let cache ← fsInit (BlockCache.off twoFiles fun _ => true)
  let t ← fsRun 1 (serveInit cache)
    [.request 7 (.openFile [0x2F, 0x64] oMkdir), .request 7 (.remove [0x2F, 0x64])]
  let (r, x, s) ← fileCreate t.cache 1 [0x2F, 0x64]
  let f ← derefFile x
  pure (r, wordAt s.content f.type == ftypeDir)

/-- **A new file that is a directory**: its structure was that of a removed directory. -/
theorem new_file_is_directory : ¬ ∀ disk grants cache depth events t path f s', Consistent disk →
    Tidy disk → fsInit (BlockCache.off disk grants) = .ok cache →
    fsRun depth (serveInit cache) events = .ok t → (0 : Char8) ∉ path →
    fileCreate t.cache depth path = .ok (0, some f, s') → EmptyFile s'.content f := by
  intro h
  have heval : recycledDir = .ok (0, true) := by rfl
  obtain ⟨cache, hinit, h1⟩ := bind_eq_ok.mp heval
  obtain ⟨t, hrun, h2⟩ := bind_eq_ok.mp h1
  obtain ⟨⟨r, x, s'⟩, hcreate, h3⟩ := bind_eq_ok.mp h2
  obtain ⟨f, hf, h4⟩ := bind_eq_ok.mp h3
  simp only [pure_eq_ok, Except.ok.injEq, Prod.mk.injEq, beq_iff_eq] at h4
  obtain ⟨rfl, htype⟩ := h4
  cases x with
  | none => cases hf
  | some g =>
    cases hf
    have hreg := (h twoFiles _ cache 1 _ t [0x2F, 0x64] f s' twoFiles_consistent twoFiles_tidy hinit
      hrun (by decide) hcreate).type
    rw [htype] at hreg
    exact absurd hreg (by decide)

end MosVolca
