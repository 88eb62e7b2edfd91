import MosVolca.Library.Endian
import MosVolca.Tools.Image

/-!
# The types of the blocks

The formatter records a type for each block that it hands out. In every state of the program between
two entries the blocks of the directories have type `BLOCK_FILE` and the indirect blocks have type
`BLOCK_INDEX`, and in the blocks of the directories the structures with a name come first. Nothing
here depends on where the blocks are or what is in the files.

## Main definitions

* `MosVolca.InImage` — the files: the root and the structures with a name.
* `MosVolca.Typed`, `MosVolca.Sized` — the invariant, for the numbers of blocks that the files have.

## Main results

* `MosVolca.saveBlockLink_typed` — one block more of a file.
* `MosVolca.formatDisk_typed` — the disk that the program leaves.
-/

namespace MosVolca

open Bounded DiskImage

variable {n : ℕ} {s s' s1 : DiskImage} {C : ℕ → ℕ → Prop} {f g : FilePtr} {cnt cnt' : FilePtr → ℕ}
  {b bno i j k w : ℕ} {x : Word} {name data : List Char8}

/-! ## Files -/

/-- A block for the entries of a directory. -/
def IsEntries (s : DiskImage) (b : ℕ) : Prop := b < s.nextbno ∧ s.type b = .file

/-- An indirect block. -/
def IsIndex (s : DiskImage) (b : ℕ) : Prop := b < s.nextbno ∧ s.type b = .index

/-- The files of the image: the root, and the structures with a name in the blocks for entries. -/
inductive InImage (s : DiskImage) : FilePtr → Prop
  | root : InImage s FilePtr.root
  | entry {b j : ℕ} (hb : IsEntries s b) (hj : j < 16)
      (hname : s.nameByte (FilePtr.entry b j) 0 ≠ 0) : InImage s (FilePtr.entry b j)

/-- The pointer to block `i` of a file. -/
def pointerAt (s : DiskImage) (f : FilePtr) (i : ℕ) : Word :=
  wordAt s.disk (placeOf s.disk f (Slot.data i).field)

/-- The blocks of a file with `k` pointers have the types for their use. -/
structure FileTyped (s : DiskImage) (f : FilePtr) (k : ℕ) : Prop where
  index : 10 < k → IsIndex s (wordAt s.disk f.indirect).toNat
  noIndex : wordAt s.disk f.type = ftypeDir → k ≤ 10 → wordAt s.disk f.indirect = 0
  entries : wordAt s.disk f.type = ftypeDir → ∀ i < k, IsEntries s (pointerAt s f i).toNat

/-- The size of a file with `k` pointers. -/
structure SizeTyped (s : DiskImage) (f : FilePtr) (k : ℕ) : Prop where
  dir : wordAt s.disk f.type = ftypeDir →
    wordAt s.disk f.size = BitVec.ofNat 32 (4096 * k) ∧ k ≤ 1024
  other : wordAt s.disk f.type ≠ ftypeDir → 40960 < (wordAt s.disk f.size).toNat → 10 < k

/-- **The types of the blocks match their use**, if the files have `cnt` pointers. -/
structure Typed (n : ℕ) (s : DiskImage) (cnt : FilePtr → ℕ) : Prop where
  sound : Sound n s
  ge : 2 + nbitblock n ≤ s.nextbno
  boot : s.type 0 = .boot
  super : s.type 1 = .super
  bmap : ∀ b, IsReserved n b → s.type b = .bmap
  nblocks : s.disk 1 1 = BitVec.ofNat 32 n
  named : ∀ b, IsEntries s b → ∃ u ≤ 16, (∀ j < u, s.nameByte (FilePtr.entry b j) 0 ≠ 0) ∧
    ∀ w, 64 * u ≤ w → w < 1024 → s.disk b w = 0
  file : ∀ f, InImage s f → FileTyped s f (cnt f)
  once : ∀ f g, InImage s f → InImage s g → 10 < cnt f → 10 < cnt g →
    wordAt s.disk f.indirect = wordAt s.disk g.indirect → f = g

/-- The sizes of the files, but for `g`. -/
def SizedBut (s : DiskImage) (cnt : FilePtr → ℕ) (g : FilePtr) : Prop :=
  ∀ f, InImage s f → f ≠ g → SizeTyped s f (cnt f)

/-- The sizes of the files. -/
def Sized (s : DiskImage) (cnt : FilePtr → ℕ) : Prop := ∀ f, InImage s f → SizeTyped s f (cnt f)

/-- The files stay, with their types. -/
def FilesStay (s s' : DiskImage) : Prop :=
  ∀ f, InImage s f → InImage s' f ∧ wordAt s'.disk f.type = wordAt s.disk f.type

lemma FilesStay.trans (h : FilesStay s s1) (h' : FilesStay s1 s') : FilesStay s s' :=
  fun f hf => ⟨(h' f (h f hf).1).1, (h' f (h f hf).1).2.trans (h f hf).2⟩

/-! ## Places -/

lemma pointerAt_of_lt (hi : i < 10) : pointerAt s f i = s.disk f.block (f.word + (34 + i)) := by
  have hf : (Slot.data i).field = .head (34 + i) := if_pos hi
  rw [pointerAt, hf]
  rfl

lemma pointerAt_of_le (hi : 10 ≤ i) :
    pointerAt s f i = s.disk (wordAt s.disk f.indirect).toNat i := by
  have hf : (Slot.data i).field = .far i := if_neg (not_lt.mpr hi)
  rw [pointerAt, hf]
  rfl

lemma nameByte_congr (h : s'.disk f.block f.word = s.disk f.block f.word) :
    s'.nameByte f 0 = s.nameByte f 0 := by
  rw [DiskImage.nameByte, DiskImage.nameByte, ByteWords.get, ByteWords.get, Nat.add_zero,
    Nat.mul_div_cancel_left _ (by decide), h]

lemma InImage.block (h : InImage s f) : f = FilePtr.root ∨ IsEntries s f.block := by
  cases h with
  | root => exact .inl rfl
  | entry hb _ _ => exact .inr hb

namespace Typed

variable (h : Typed n s cnt)

include h in
lemma one_lt : 1 < s.nextbno := Nat.lt_of_lt_of_le (Nat.lt_add_right _ (by decide)) h.ge

include h in
/-- The structures are in blocks that are handed out. -/
lemma block_lt (hf : InImage s f) : f.block < s.nextbno := by
  obtain rfl | hb := hf.block
  · exact h.one_lt
  · exact hb.1

include h in
/-- There is no structure in an indirect block. -/
lemma block_ne (hf : InImage s f) (hb : IsIndex s b) : f.block ≠ b := by
  rintro rfl
  obtain rfl | he := hf.block
  · exact absurd (hb.2.symm.trans h.super) (by decide)
  · exact absurd (hb.2.symm.trans he.2) (by decide)

include h in
/-- The super block is no block for entries. -/
lemma not_isEntries_one : ¬ IsEntries s 1 := fun hb =>
  absurd (hb.2.symm.trans h.super) (by decide)

include h in
/-- The structures do not overlap. -/
lemma eq_of_inStruct (hf : InImage s f) (hg : InImage s g) (hw : InStruct f b w)
    (hw' : InStruct g b w) : f = g := by
  obtain ⟨rfl, hlo, hhi⟩ := hw
  obtain ⟨hb, hlo', hhi'⟩ := hw'
  cases hf with
  | root =>
    cases hg with
    | root => rfl
    | entry he _ _ =>
      cases hb
      exact absurd he h.not_isEntries_one
  | entry he _ _ =>
    cases hg with
    | root =>
      cases hb
      exact absurd he h.not_isEntries_one
    | entry _ _ _ =>
      simp only [FilePtr.entry] at hb hlo hhi hlo' hhi' ⊢
      rw [hb, FilePtr.mk.injEq]
      exact ⟨rfl, by omega⟩

end Typed

/-! ## Steps -/

/-- Blocks are handed out, those for entries without any, and of the words of the other blocks only
those in `C` change. -/
structure AddsBlocks (s : DiskImage) (C : ℕ → ℕ → Prop) (s' : DiskImage) : Prop where
  next : s.nextbno ≤ s'.nextbno
  type : ∀ b < s.nextbno, s'.type b = s.type b
  new : ∀ b, s.nextbno ≤ b → IsEntries s' b → ∀ w, s'.disk b w = 0
  same : ∀ b w, b < s.nextbno → ¬ C b w → s'.disk b w = s.disk b w

namespace AddsBlocks

variable (hg : AddsBlocks s C s')

include hg in
lemma isEntries (hb : IsEntries s b) : IsEntries s' b :=
  ⟨hb.1.trans_le hg.next, (hg.type b hb.1).trans hb.2⟩

include hg in
lemma isIndex (hb : IsIndex s b) : IsIndex s' b :=
  ⟨hb.1.trans_le hg.next, (hg.type b hb.1).trans hb.2⟩

include hg in
lemma isEntries_iff (hlt : b < s.nextbno) : IsEntries s' b ↔ IsEntries s b :=
  ⟨fun hb => ⟨hlt, (hg.type b hlt).symm.trans hb.2⟩, hg.isEntries⟩

end AddsBlocks

/-- The files of the image are the named entries of its directory blocks. -/
lemma inImage_entry : InImage s (FilePtr.entry b j) ↔
    IsEntries s b ∧ j < 16 ∧ s.nameByte (FilePtr.entry b j) 0 ≠ 0 := by
  constructor
  · intro h
    obtain ⟨f, hf⟩ : ∃ f, f = FilePtr.entry b j := ⟨_, rfl⟩
    rw [← hf] at h
    cases h with
    | root => exact absurd hf.symm (FilePtr.entry_ne_root b j)
    | entry hb hj hname =>
      simp only [FilePtr.entry, FilePtr.mk.injEq] at hf
      obtain ⟨rfl, hw⟩ := hf
      obtain rfl : _ = j := Nat.eq_of_mul_eq_mul_left (by decide) hw
      exact ⟨hb, hj, hname⟩
  · rintro ⟨hb, hj, hname⟩
    exact .entry hb hj hname

/-- The blocks of a file keep their types if its pointers stay. -/
lemma FileTyped.congr (h : FileTyped s f k) (hg : AddsBlocks s C s') (hlt : f.block < s.nextbno)
    (hhead : ∀ w, 33 ≤ w → w < 45 → ¬ C f.block (f.word + w))
    (hfar : 10 < k → ∀ i, ¬ C (wordAt s.disk f.indirect).toNat i) : FileTyped s' f k := by
  have hword : ∀ w, 33 ≤ w → w < 45 → s'.disk f.block (f.word + w) = s.disk f.block (f.word + w) :=
    fun w hw hw' => hg.same _ _ hlt (hhead w hw hw')
  have htype : wordAt s'.disk f.type = wordAt s.disk f.type := hword 33 (by decide) (by decide)
  have hind : wordAt s'.disk f.indirect = wordAt s.disk f.indirect :=
    hword 44 (by decide) (by decide)
  refine ⟨fun hk => ?_, fun hd hk => ?_, fun hd i hi => ?_⟩
  · rw [hind]
    exact hg.isIndex (h.index hk)
  · rw [hind]
    exact h.noIndex (htype ▸ hd) hk
  · have hpointer : pointerAt s' f i = pointerAt s f i := by
      rcases Nat.lt_or_ge i 10 with hi10 | hi10
      · rw [pointerAt_of_lt hi10, pointerAt_of_lt hi10]
        exact hword (34 + i) (by omega) (by omega)
      · have hk : 10 < k := by omega
        rw [pointerAt_of_le hi10, pointerAt_of_le hi10, hind]
        exact hg.same _ _ (h.index hk).1 (hfar hk i)
    rw [hpointer]
    exact hg.isEntries (h.entries (htype ▸ hd) i hi)

/-- In the blocks for entries only fields of files change. -/
def OnlyFields (s : DiskImage) (C : ℕ → ℕ → Prop) : Prop :=
  ∀ b w, IsEntries s b → C b w → ∃ j, 64 * j + 32 ≤ w ∧ w < 64 * j + 64 ∧ InImage s (FilePtr.entry b j)

section Step

variable (h : Typed n s cnt) (hg : AddsBlocks s C s') (honly : OnlyFields s C)

include hg honly in
/-- The names stay. -/
lemma AddsBlocks.nameByte_eq (hb : IsEntries s b) :
    s'.nameByte (FilePtr.entry b j) 0 = s.nameByte (FilePtr.entry b j) 0 := by
  refine nameByte_congr (hg.same _ _ hb.1 fun hc => ?_)
  obtain ⟨i, hlo, hhi, -⟩ := honly _ _ hb hc
  simp only [FilePtr.entry] at hlo hhi
  omega

include hg honly in
/-- **There are the same files** as before. -/
lemma AddsBlocks.inImage_iff : InImage s' f ↔ InImage s f := by
  constructor
  · intro hf
    cases hf with
    | root => exact .root
    | entry hb hj hname =>
      rcases Nat.lt_or_ge _ s.nextbno with hlt | hge
      · have hb' := (hg.isEntries_iff hlt).mp hb
        exact .entry hb' hj (hg.nameByte_eq honly hb' ▸ hname)
      · exact absurd (nameByte_of_zero (hg.new _ hge hb _)) hname
  · intro hf
    cases hf with
    | root => exact .root
    | entry hb hj hname => exact .entry (hg.isEntries hb) hj ((hg.nameByte_eq honly hb).symm ▸ hname)

include h hg honly in
/-- **A step that changes fields of files only.** -/
lemma Typed.step (hs : Sound n s') (h1 : ¬ C 1 1)
    (hfile : ∀ f, InImage s f → FileTyped s' f (cnt' f))
    (honce : ∀ f g, InImage s f → InImage s g → 10 < cnt' f → 10 < cnt' g →
      wordAt s'.disk f.indirect = wordAt s'.disk g.indirect → f = g) : Typed n s' cnt' where
  sound := hs
  ge := h.ge.trans hg.next
  boot := (hg.type 0 (Nat.zero_lt_of_lt h.one_lt)).trans h.boot
  super := (hg.type 1 h.one_lt).trans h.super
  bmap b hb := (hg.type b (hb.2.trans_le h.ge)).trans (h.bmap b hb)
  nblocks := (hg.same 1 1 h.one_lt h1).trans h.nblocks
  named b hb := by
    rcases Nat.lt_or_ge b s.nextbno with hlt | hge
    · have hb' := (hg.isEntries_iff hlt).mp hb
      obtain ⟨u, hu, hnames, hzero⟩ := h.named b hb'
      refine ⟨u, hu, fun j hj => hg.nameByte_eq honly hb' ▸ hnames j hj, fun w hw hw' => ?_⟩
      rw [hg.same b w hlt, hzero w hw hw']
      intro hc
      -- a structure from `u` on has no name
      obtain ⟨j, hlo, hhi, hin⟩ := honly b w hb' hc
      obtain ⟨-, hj, hname⟩ := inImage_entry.mp hin
      exact hname (nameByte_of_zero (hzero (64 * j) (by omega) (by omega)))
    · exact ⟨0, Nat.zero_le 16, fun j hj => absurd hj (Nat.not_lt_zero j),
        fun w _ _ => hg.new b hge hb w⟩
  file f hf := hfile f ((hg.inImage_iff honly).mp hf)
  once f g hf hg' := honce f g ((hg.inImage_iff honly).mp hf) ((hg.inImage_iff honly).mp hg')

end Step

/-- The size and the type of a file stay. -/
lemma SizeTyped.congr (h : SizeTyped s f k) (hsize : wordAt s'.disk f.size = wordAt s.disk f.size)
    (htype : wordAt s'.disk f.type = wordAt s.disk f.type) : SizeTyped s' f k := by
  refine ⟨fun hd => ?_, fun hd => ?_⟩
  · rw [hsize]
    exact h.dir (htype ▸ hd)
  · rw [hsize]
    exact h.other (htype ▸ hd)

/-! ## Steps that change no file -/

section Keep

variable (h : Typed n s cnt) (hg : AddsBlocks s C s')
  (hC : ∀ b w, C b w → ¬ IsEntries s b ∧ ¬ IsIndex s b ∧ b ≠ 1)

include hC in
lemma onlyFields_of_not : OnlyFields s C := fun b w hb hc => absurd hb (hC b w hc).1

include h hg hC in
/-- The words of the files stay. -/
lemma AddsBlocks.word_eq (hf : InImage s f) : s'.disk f.block w = s.disk f.block w := by
  refine hg.same _ _ (h.block_lt hf) fun hc => ?_
  obtain ⟨hne, -, hne1⟩ := hC _ _ hc
  obtain rfl | hb := hf.block
  · exact hne1 rfl
  · exact hne hb

include h hg hC in
lemma Typed.keep (hs : Sound n s') : Typed n s' cnt := by
  refine h.step hg (onlyFields_of_not hC) hs (fun hc => (hC 1 1 hc).2.2 rfl) (fun f hf => ?_) ?_
  · refine (h.file f hf).congr hg (h.block_lt hf) (fun w _ _ hc => ?_) fun hk i hc =>
      (hC _ _ hc).2.1 ((h.file f hf).index hk)
    obtain ⟨hne, -, hne1⟩ := hC _ _ hc
    obtain rfl | hb := hf.block
    · exact hne1 rfl
    · exact hne hb
  · intro f g hf hg' hcf hcg he
    refine h.once f g hf hg' hcf hcg ?_
    have hwf : wordAt s'.disk f.indirect = wordAt s.disk f.indirect := hg.word_eq h hC hf
    have hwg : wordAt s'.disk g.indirect = wordAt s.disk g.indirect := hg.word_eq h hC hg'
    rw [← hwf, he, hwg]

include h hg hC in
lemma AddsBlocks.filesStay : FilesStay s s' := fun _ hf =>
  ⟨(hg.inImage_iff (onlyFields_of_not hC)).mpr hf, hg.word_eq h hC hf⟩

include h hg hC in
lemma Sized.keep (hz : Sized s cnt) : Sized s' cnt := fun f hf => by
  have hf' := (hg.inImage_iff (onlyFields_of_not hC)).mp hf
  exact (hz f hf').congr (hg.word_eq h hC hf') (hg.word_eq h hC hf')

include h hg hC in
lemma SizedBut.keep (hz : SizedBut s cnt g) : SizedBut s' cnt g := fun f hf hne => by
  have hf' := (hg.inImage_iff (onlyFields_of_not hC)).mp hf
  exact (hz f hf' hne).congr (hg.word_eq h hC hf') (hg.word_eq h hC hf')

end Keep

/-! ## Steps that change one file -/

/-- The words of a file with `k` pointers that may change: the fields of its structure and its
indirect block. -/
def Touched (s : DiskImage) (f : FilePtr) (k b w : ℕ) : Prop :=
  b = f.block ∧ f.word + 32 ≤ w ∧ w < f.word + 64 ∨ 10 < k ∧ b = (wordAt s.disk f.indirect).toNat

section Touch

variable (h : Typed n s cnt) (hf : InImage s f) (hg : AddsBlocks s (Touched s f (cnt f)) s')

include h hf in
lemma onlyFields_touched : OnlyFields s (Touched s f (cnt f)) := by
  rintro b w hb (⟨rfl, hlo, hhi⟩ | ⟨hk, rfl⟩)
  · cases hf with
    | root => exact absurd hb h.not_isEntries_one
    | entry he hj hname => exact ⟨_, hlo, hhi, .entry he hj hname⟩
  · exact absurd (hb.2.symm.trans ((h.file f hf).index hk).2) (by decide)

include h hf hg in
/-- The words of the other structures stay. -/
lemma AddsBlocks.other_word {g : FilePtr} (hg' : InImage s g) (hne : g ≠ f) (hw : w < 64) :
    s'.disk g.block (g.word + w) = s.disk g.block (g.word + w) := by
  refine hg.same _ _ (h.block_lt hg') ?_
  rintro (⟨hb, hlo, hhi⟩ | ⟨hk, hb⟩)
  · exact hne (h.eq_of_inStruct hg' hf ⟨rfl, by omega, by omega⟩ ⟨hb, by omega, hhi⟩)
  · exact h.block_ne hg' ((h.file f hf).index hk) hb

include h hf hg in
lemma AddsBlocks.other_file {g : FilePtr} (hg' : InImage s g) (hne : g ≠ f) :
    FileTyped s' g (cnt g) := by
  refine (h.file g hg').congr hg (h.block_lt hg') (fun w _ hw' => ?_) fun hk i => ?_
  · rintro (⟨hb, hlo, hhi⟩ | ⟨hk, hb⟩)
    · exact hne (h.eq_of_inStruct hg' hf ⟨rfl, by omega, by omega⟩ ⟨hb, by omega, hhi⟩)
    · exact h.block_ne hg' ((h.file f hf).index hk) hb
  · rintro (⟨hb, -, -⟩ | ⟨hkf, hb⟩)
    · exact h.block_ne hf ((h.file g hg').index hk) hb.symm
    · exact hne (h.once g f hg' hf hk hkf (BitVec.eq_of_toNat_eq hb))

include h hf hg in
/-- **A step that changes the pointers of one file**: its indirect block stays, or is a new one. -/
lemma Typed.touch (hs : Sound n s') (hfile : FileTyped s' f k)
    (hind : 10 < k → 10 < cnt f ∧ wordAt s'.disk f.indirect = wordAt s.disk f.indirect ∨
      s.nextbno ≤ (wordAt s'.disk f.indirect).toNat) :
    Typed n s' (Function.update cnt f k) := by
  have honly := onlyFields_touched h hf
  -- the indirect block of another file is not that of `f`
  have hother : ∀ g, InImage s g → g ≠ f → 10 < k → 10 < cnt g →
      wordAt s'.disk g.indirect ≠ wordAt s'.disk f.indirect := by
    intro g hg' hne hk hcg he
    have hw : wordAt s'.disk g.indirect = wordAt s.disk g.indirect :=
      hg.other_word h hf hg' hne (by decide : 44 < 64)
    rcases hind hk with ⟨hcf, hsame⟩ | hnew
    · exact hne (h.once g f hg' hf hcg hcf (by rw [← hw, he, hsame]))
    · rw [← he, hw] at hnew
      exact absurd ((h.file g hg').index hcg).1 (not_lt.mpr hnew)
  refine h.step hg honly hs ?_ (fun g hg' => ?_) fun g g' hg1 hg2 => ?_
  · rintro (⟨hb, hlo, -⟩ | ⟨hk, hb⟩)
    · obtain rfl | he := hf.block
      · exact absurd hlo (by decide)
      · exact h.not_isEntries_one (hb ▸ he)
    · have hi := (h.file f hf).index hk
      rw [← hb] at hi
      exact absurd (hi.2.symm.trans h.super) (by decide)
  · by_cases hne : g = f
    · rw [hne, Function.update_self]
      exact hfile
    · rw [Function.update_of_ne hne]
      exact hg.other_file h hf hg' hne
  · by_cases hne : g = f <;> by_cases hne' : g' = f
    · exact fun _ _ _ => hne.trans hne'.symm
    · rw [hne, Function.update_self, Function.update_of_ne hne']
      exact fun hk hc he => absurd he.symm (hother g' hg2 hne' hk hc)
    · rw [hne', Function.update_self, Function.update_of_ne hne]
      exact fun hc hk he => absurd he (hother g hg1 hne hk hc)
    · rw [Function.update_of_ne hne, Function.update_of_ne hne']
      intro hc hc' he
      refine h.once g g' hg1 hg2 hc hc' ?_
      have hw : wordAt s'.disk g.indirect = wordAt s.disk g.indirect :=
        hg.other_word h hf hg1 hne (by decide : 44 < 64)
      have hw' : wordAt s'.disk g'.indirect = wordAt s.disk g'.indirect :=
        hg.other_word h hf hg2 hne' (by decide : 44 < 64)
      rw [← hw, he, hw']

include h hf hg in
lemma SizedBut.touch (hz : SizedBut s cnt f) : SizedBut s' (Function.update cnt f k) f := by
  intro g hg' hne
  have hold := (hg.inImage_iff (onlyFields_touched h hf)).mp hg'
  rw [Function.update_of_ne hne]
  exact (hz g hold hne).congr (hg.other_word h hf hold hne (by decide : 32 < 64))
    (hg.other_word h hf hold hne (by decide : 33 < 64))

include h hf hg in
lemma FilesStay.touch (htype : wordAt s'.disk f.type = wordAt s.disk f.type) : FilesStay s s' := by
  refine fun g hg' => ⟨(hg.inImage_iff (onlyFields_touched h hf)).mpr hg', ?_⟩
  by_cases hne : g = f
  · rw [hne, htype]
  · exact hg.other_word h hf hg' hne (by decide : 33 < 64)

end Touch

/-! ## `save_block_link` -/

/-- A file gets one pointer more. -/
lemma FileTyped.add (h : FileTyped s f k) (hg : AddsBlocks s C s')
    (htype : wordAt s'.disk f.type = wordAt s.disk f.type)
    (hindex : 10 ≤ k → IsIndex s' (wordAt s'.disk f.indirect).toNat)
    (hno : k < 10 → wordAt s'.disk f.indirect = wordAt s.disk f.indirect)
    (hsame : ∀ i < k, pointerAt s' f i = pointerAt s f i)
    (hnew : wordAt s.disk f.type = ftypeDir → IsEntries s' (pointerAt s' f k).toNat) :
    FileTyped s' f (k + 1) := by
  rw [← htype] at hnew
  refine ⟨fun hk => hindex (by omega), fun hd hk => ?_, fun hd i hi => ?_⟩
  · rw [hno (by omega)]
    exact h.noIndex (htype ▸ hd) (by omega)
  · rcases Nat.lt_succ_iff_lt_or_eq.mp hi with hlt | rfl
    · rw [hsame i hlt]
      exact hg.isEntries (h.entries (htype ▸ hd) i hlt)
    · exact hnew hd

/-- What one block more of a file leaves. -/
structure LinksTyped (n : ℕ) (s : DiskImage) (cnt : FilePtr → ℕ) (f : FilePtr) (s' : DiskImage) :
    Prop where
  adds : AddsBlocks s (Touched s f (cnt f)) s'
  typed : Typed n s' (Function.update cnt f (cnt f + 1))
  lt : cnt f < 1024
  size : wordAt s'.disk f.size = wordAt s.disk f.size
  type : wordAt s'.disk f.type = wordAt s.disk f.type
  indirect : cnt f < 10 → wordAt s'.disk f.indirect = wordAt s.disk f.indirect

section Link

variable (h : Typed n s cnt) (hf : InImage s f) (hn : n ≤ 0x40000) (hk : cnt f = k)
  (hb : bno < s.nextbno) (hd : wordAt s.disk f.type = ftypeDir → s.type bno = .file)

include h hf hn hk hb hd in
/-- The pointer is in the structure. -/
lemma linksTyped_direct (hlt : k < 10) :
    LinksTyped n s cnt f (s.store (f.direct k) (BitVec.ofNat 32 bno)) := by
  obtain ⟨s', hs'⟩ : ∃ s', s.store (f.direct k) (BitVec.ofNat 32 bno) = s' := ⟨_, rfl⟩
  have hword : ∀ b w, ¬ (b = f.block ∧ w = f.word + (34 + k)) → s'.disk b w = s.disk b w :=
    fun b w hw => hs' ▸ store_disk_of_ne hw
  have hadds : AddsBlocks s (Touched s f (cnt f)) s' := by
    refine ⟨by rw [← hs']; rfl, fun b _ => by rw [← hs']; rfl, fun b hge he => ?_,
      fun b w _ hC => hword b w fun he => hC (.inl ⟨he.1, by omega, by omega⟩)⟩
    rw [← hs'] at he
    exact absurd he.1 (not_lt.mpr hge)
  have hhead : ∀ w, w ≠ 34 + k → s'.disk f.block (f.word + w) = s.disk f.block (f.word + w) :=
    fun w hw => hword _ _ fun he => hw (Nat.add_left_cancel he.2)
  have hind : wordAt s'.disk f.indirect = wordAt s.disk f.indirect := hhead 44 (by omega)
  have htype : wordAt s'.disk f.type = wordAt s.disk f.type := hhead 33 (by omega)
  have hsound : Sound n s' := hs' ▸ h.sound.store (h.block_lt hf)
  have hfile : FileTyped s' f (k + 1) := by
    have hold := h.file f hf
    rw [hk] at hold
    refine hold.add hadds htype (fun hge => absurd hge (not_le.mpr hlt)) (fun _ => hind)
      (fun i hi => ?_) fun hdir => ?_
    · rw [pointerAt_of_lt (hi.trans hlt), pointerAt_of_lt (hi.trans hlt)]
      exact hhead (34 + i) (by omega)
    · have hval : pointerAt s' f k = BitVec.ofNat 32 bno := by
        rw [pointerAt_of_lt hlt, ← hs']
        exact wordAt_store s (f.direct k) _
      rw [hval, toNat_ofNat_block hn (hb.trans_le h.sound.le)]
      exact hadds.isEntries ⟨hb, hd hdir⟩
  rw [hs']
  exact ⟨hadds, hk.symm ▸ h.touch hf hadds hsound hfile fun hge => absurd hge (by omega),
    by omega, hhead 32 (by omega), htype, fun _ => hind⟩

include h hf hn hk hb hd in
/-- The pointer is in the indirect block that was there. -/
lemma linksTyped_far (hgt : 10 < k) (hlt : k < 1024) :
    LinksTyped n s cnt f
      (s.store ⟨(wordAt s.disk f.indirect).toNat, k⟩ (BitVec.ofNat 32 bno)) := by
  obtain ⟨s', hs'⟩ : ∃ s', s.store ⟨(wordAt s.disk f.indirect).toNat, k⟩ (BitVec.ofNat 32 bno) =
    s' := ⟨_, rfl⟩
  have hold := h.file f hf
  rw [hk] at hold
  have hi := hold.index hgt
  have hword : ∀ b w, ¬ (b = (wordAt s.disk f.indirect).toNat ∧ w = k) →
      s'.disk b w = s.disk b w := fun b w hw => hs' ▸ store_disk_of_ne hw
  have hadds : AddsBlocks s (Touched s f (cnt f)) s' := by
    refine ⟨by rw [← hs']; rfl, fun b _ => by rw [← hs']; rfl, fun b hge he => ?_,
      fun b w _ hC => hword b w fun he => hC (.inr ⟨by omega, he.1⟩)⟩
    rw [← hs'] at he
    exact absurd he.1 (not_lt.mpr hge)
  have hhead : ∀ w, s'.disk f.block w = s.disk f.block w :=
    fun w => hword _ _ fun he => h.block_ne hf hi he.1
  have hind : wordAt s'.disk f.indirect = wordAt s.disk f.indirect := hhead _
  have hsound : Sound n s' := hs' ▸ h.sound.store hi.1
  have hfile : FileTyped s' f (k + 1) := by
    refine hold.add hadds (hhead _) (fun _ => ?_) (fun _ => hind) (fun i hik => ?_) fun hdir => ?_
    · rw [hind]
      exact hadds.isIndex hi
    · rcases Nat.lt_or_ge i 10 with hi10 | hi10
      · rw [pointerAt_of_lt hi10, pointerAt_of_lt hi10, hhead]
      · rw [pointerAt_of_le hi10, pointerAt_of_le hi10, hind, hword _ _ fun he => hik.ne he.2]
    · have hval : pointerAt s' f k = BitVec.ofNat 32 bno := by
        rw [pointerAt_of_le hgt.le, hind, ← hs']
        exact wordAt_store s ⟨(wordAt s.disk f.indirect).toNat, k⟩ _
      rw [hval, toNat_ofNat_block hn (hb.trans_le h.sound.le)]
      exact hadds.isEntries ⟨hb, hd hdir⟩
  rw [hs']
  exact ⟨hadds, hk.symm ▸ h.touch hf hadds hsound hfile fun _ => .inl ⟨by omega, hind⟩,
    by omega, hhead _, hhead _, fun _ => hind⟩

include h hf hn hk hb hd in
/-- The pointer is the first one in a new indirect block. -/
lemma linksTyped_index (hk10 : k = 10) (hroom : s.nextbno < n) :
    LinksTyped n s cnt f
      (((s.give .index).store f.indirect (BitVec.ofNat 32 s.nextbno)).store
        ⟨(BitVec.ofNat 32 s.nextbno).toNat, k⟩ (BitVec.ofNat 32 bno)) := by
  rw [toNat_ofNat_block hn hroom]
  obtain ⟨s', hs'⟩ : ∃ s', ((s.give .index).store f.indirect (BitVec.ofNat 32 s.nextbno)).store
    ⟨s.nextbno, k⟩ (BitVec.ofNat 32 bno) = s' := ⟨_, rfl⟩
  have hold := h.file f hf
  rw [hk] at hold
  have hblock := h.block_lt hf
  have hnext : s'.nextbno = s.nextbno + 1 := by
    rw [← hs']
    rfl
  have htypes : s'.type = Function.update s.type s.nextbno .index := by
    rw [← hs']
    rfl
  have hword : ∀ b w, b < s.nextbno → ¬ (b = f.block ∧ w = f.word + 44) →
      s'.disk b w = s.disk b w := fun b w hlt hw => by
    rw [← hs', store_disk_of_ne fun he => hlt.ne he.1, store_disk_of_ne hw]
    rfl
  have hadds : AddsBlocks s (Touched s f (cnt f)) s' := by
    refine ⟨by omega, fun b hlt => by rw [htypes, Function.update_of_ne hlt.ne], fun b hge he => ?_,
      fun b w hlt hC => hword b w hlt fun he => hC (.inl ⟨he.1, by omega, by omega⟩)⟩
    obtain rfl : b = s.nextbno := by
      have := he.1
      omega
    have htype := he.2
    rw [htypes, Function.update_self] at htype
    cases htype
  have hhead : ∀ w, w ≠ 44 → s'.disk f.block (f.word + w) = s.disk f.block (f.word + w) :=
    fun w hw => hword _ _ hblock fun he => hw (Nat.add_left_cancel he.2)
  have hind : (wordAt s'.disk f.indirect).toNat = s.nextbno := by
    have hval : wordAt s'.disk f.indirect = BitVec.ofNat 32 s.nextbno := by
      rw [← hs', wordAt_store_of_ne fun he => hblock.ne (congrArg WordPtr.block he), wordAt_store]
    rw [hval, toNat_ofNat_block hn hroom]
  have hsound : Sound n s' := hs' ▸ ((h.sound.give hroom .index).store
    (hblock.trans (Nat.lt_succ_self _))).store (Nat.lt_succ_self _)
  have hindex : IsIndex s' (wordAt s'.disk f.indirect).toNat := by
    rw [hind]
    exact ⟨by omega, by rw [htypes, Function.update_self]⟩
  have hfile : FileTyped s' f (k + 1) := by
    refine hold.add hadds (hhead 33 (by decide)) (fun _ => hindex) (fun hlt => absurd hlt (by omega))
      (fun i hi => ?_) fun hdir => ?_
    · have hi10 : i < 10 := by omega
      rw [pointerAt_of_lt hi10, pointerAt_of_lt hi10]
      exact hhead (34 + i) (by omega)
    · have hval : pointerAt s' f k = BitVec.ofNat 32 bno := by
        rw [pointerAt_of_le hk10.ge, hind, ← hs']
        exact wordAt_store _ ⟨s.nextbno, k⟩ _
      rw [hval, toNat_ofNat_block hn (hb.trans_le h.sound.le)]
      exact hadds.isEntries ⟨hb, hd hdir⟩
  rw [hs']
  exact ⟨hadds, hk.symm ▸ h.touch hf hadds hsound hfile fun _ => .inr hind.ge, by omega,
    hhead 32 (by decide), hhead 33 (by decide), fun hlt => absurd hlt (by omega)⟩

include h hf hn hk hb hd in
/-- **`save_block_link`** keeps the types of the blocks. A file that has filled the pointers of its
structure must have no indirect block yet. -/
lemma saveBlockLink_typed (h10 : k = 10 → wordAt s.disk f.indirect = 0)
    (hrun : saveBlockLink n s f k bno = .ok s') : LinksTyped n s cnt f s' := by
  obtain ⟨hlt, ⟨hk10, rfl⟩ | ⟨hk10, hne, rfl⟩ | ⟨hk10, h0, hroom, rfl⟩⟩ := saveBlockLink_cases hrun
  · exact linksTyped_direct h hf hn hk hb hd hk10
  · exact linksTyped_far h hf hn hk hb hd (by
      by_contra hle
      exact hne (h10 (by omega))) hlt
  · refine linksTyped_index h hf hn hk hb hd ?_ hroom
    -- with more pointers there is an indirect block, and block 0 is none
    by_contra hne
    have hi := (h.file f hf).index (by omega)
    rw [h0] at hi
    exact absurd (hi.2.symm.trans h.boot) (by decide)

end Link

/-! ## `make_link_block` -/

lemma addsBlocks_give (h : Sound n s) (type : BlockType) :
    AddsBlocks s (fun _ _ => False) (s.give type) where
  next := Nat.le_succ _
  type _ hlt := Function.update_of_ne hlt.ne _ _
  new b hge _ w := h.fresh b w hge
  same _ _ _ _ := rfl

lemma Sized.but (h : Sized s cnt) (g : FilePtr) : SizedBut s cnt g := fun f hf _ => h f hf

lemma SizedBut.sized (h : SizedBut s cnt g) (hg : SizeTyped s g (cnt g)) : Sized s cnt :=
  fun f hf => by
    by_cases hne : f = g
    · subst hne
      exact hg
    · exact h f hf hne

/-- The numbers of blocks that a step leaves, the sizes, and the files that were there. -/
structure Formats (n : ℕ) (s s' : DiskImage) (cnt : FilePtr → ℕ) : Prop where
  typed : Typed n s' cnt
  sized : Sized s' cnt
  stay : FilesStay s s'

/-- The first structure without a name in a block for entries. -/
structure FreeEntry (s : DiskImage) (b j : ℕ) : Prop where
  block : IsEntries s b
  lt : j < 16
  named : ∀ i < j, s.nameByte (FilePtr.entry b i) 0 ≠ 0
  zero : ∀ w, 64 * j ≤ w → w < 1024 → s.disk b w = 0

/-- The size of a file is set. -/
lemma Typed.storeSize (h : Typed n s cnt) (hf : InImage s f) (x : Word) :
    AddsBlocks s (Touched s f (cnt f)) (s.store f.size x) ∧ Typed n (s.store f.size x) cnt := by
  have hword : ∀ b w, ¬ (b = f.block ∧ w = f.word + 32) →
      (s.store f.size x).disk b w = s.disk b w := fun b w hw => store_disk_of_ne hw
  have hadds : AddsBlocks s (fun b w => b = f.block ∧ w = f.word + 32) (s.store f.size x) :=
    ⟨le_rfl, fun _ _ => rfl, fun b hge he => absurd he.1 (not_lt.mpr hge),
      fun b w _ hw => hword b w hw⟩
  have htouch : AddsBlocks s (Touched s f (cnt f)) (s.store f.size x) :=
    ⟨hadds.next, hadds.type, hadds.new,
      fun b w _ hC => hword b w fun he => hC (.inl ⟨he.1, by omega, by omega⟩)⟩
  have hfile : FileTyped (s.store f.size x) f (cnt f) := by
    refine (h.file f hf).congr hadds (h.block_lt hf) ?_ fun hk i => ?_
    · rintro w hw - ⟨-, he⟩
      omega
    · rintro ⟨hb, -⟩
      exact h.block_ne hf ((h.file f hf).index hk) hb.symm
  have hind : wordAt (s.store f.size x).disk f.indirect = wordAt s.disk f.indirect :=
    hword _ _ fun he => by
      simp only [FilePtr.indirect] at he
      omega
  have htyped := h.touch hf htouch (h.sound.store (h.block_lt hf)) hfile fun hk => .inl ⟨hk, hind⟩
  rw [Function.update_eq_self] at htyped
  exact ⟨htouch, htyped⟩

section Create

variable (h : Typed n s cnt) (hz : Sized s cnt) (hn : n ≤ 0x40000) (hf : InImage s f)
  (hd : wordAt s.disk f.type = ftypeDir)

include h hz hn hf hd in
/-- **`make_link_block`** gives an empty block for entries. -/
lemma makeLinkBlock_typed {r : ℕ × DiskImage} (hrun : makeLinkBlock n s f (cnt f) = .ok r) :
    ∃ cnt', Formats n s r.2 cnt' ∧ FreeEntry r.2 r.1 0 := by
  unfold makeLinkBlock at hrun
  obtain ⟨q, hnext, hrun⟩ := bind_ok_iff.mp hrun
  obtain ⟨hlt, rfl⟩ := nextBlock_cases hnext
  obtain ⟨s2, hsave, hrun⟩ := bind_ok_iff.mp hrun
  obtain rfl := Except.ok.inj hrun
  -- the block
  have hgive := addsBlocks_give h.sound .file
  have hC : ∀ b w, (fun _ _ => False : ℕ → ℕ → Prop) b w → ¬ IsEntries s b ∧ ¬ IsIndex s b ∧ b ≠ 1 :=
    fun _ _ hc => hc.elim
  have h1 : Typed n (s.give .file) cnt := h.keep hgive hC (h.sound.give hlt .file)
  have hf1 : InImage (s.give .file) f := (hgive.inImage_iff (onlyFields_of_not hC)).mpr hf
  -- the pointer to it
  have hlink := saveBlockLink_typed h1 hf1 hn rfl (Nat.lt_succ_self _)
    (fun _ => Function.update_self _ _ _)
    (fun h10 => (h.file f hf).noIndex hd h10.le) hsave
  have hempty : ∀ w, s2.disk s.nextbno w = 0 := fun w => by
    rw [hlink.adds.same _ _ (Nat.lt_succ_self _) ?_]
    · exact h.sound.fresh _ _ le_rfl
    · rintro (⟨hb, -⟩ | ⟨hk, hb⟩)
      · exact (h.block_lt hf).ne hb.symm
      · exact ((h.file f hf).index hk).1.ne hb.symm
  have hf2 : InImage s2 f := (hlink.adds.inImage_iff (onlyFields_touched h1 hf1)).mpr hf1
  have hdir : wordAt s2.disk f.type = ftypeDir := hlink.type.trans hd
  -- the size of the directory
  obtain ⟨hadds, h3⟩ := hlink.typed.storeSize hf2 (s2.load f.size + 4096)
  have htype : wordAt (s2.store f.size (s2.load f.size + 4096)).disk f.type = wordAt s2.disk f.type :=
    wordAt_store_of_ne fun he => absurd (congrArg WordPtr.word he) (by
      simp only [FilePtr.type, FilePtr.size]
      omega)
  have hbut := ((hz.but f).keep h hgive hC).touch h1 hf1 hlink.adds (k := cnt f + 1)
  have hbut3 := hbut.touch hlink.typed hf2 hadds (k := Function.update cnt f (cnt f + 1) f)
  rw [Function.update_eq_self] at hbut3
  have hsize : SizeTyped (s2.store f.size (s2.load f.size + 4096)) f (cnt f + 1) := by
    refine ⟨fun _ => ⟨?_, hlink.lt⟩, fun hne => absurd (htype.trans hdir) hne⟩
    have hold : wordAt (s.give .file).disk f.size = BitVec.ofNat 32 (4096 * cnt f) :=
      ((hz f hf).dir hd).1
    rw [wordAt_store, DiskImage.load_eq, hlink.size, hold, Nat.mul_succ, BitVec.ofNat_add]
    rfl
  have hstay : FilesStay (s.give .file) s2 := FilesStay.touch h1 hf1 hlink.adds hlink.type
  refine ⟨_, ⟨h3, hbut3.sized ?_, ?_⟩,
    ⟨?_, by decide, fun i hi => absurd hi (Nat.not_lt_zero i), fun w _ _ => ?_⟩⟩
  · rw [Function.update_self]
    exact hsize
  · exact ((hgive.filesStay h hC).trans hstay).trans (FilesStay.touch hlink.typed hf2 hadds htype)
  · exact hadds.isEntries (hlink.adds.isEntries ⟨Nat.lt_succ_self _, Function.update_self _ _ _⟩)
  · exact (store_disk_of_ne fun he => (h.block_lt hf).ne he.1.symm).trans (hempty w)

/-! ## `create_file` -/

/-- `create_file` looks for the last block of the directory. -/
lemma lastLink_pointer (hk : 0 < k) (hrun : lastLink n s f k = .ok b) :
    b = (pointerAt s f (k - 1)).toNat := by
  unfold lastLink at hrun
  split_ifs at hrun with hdir
  · have hk10 : k ≤ 10 := hdir
    rw [pointerAt_of_lt (by omega)]
    exact (Except.ok.inj hrun).symm
  · have hk10 : ¬ k ≤ 10 := hdir
    obtain ⟨-, -, hrun⟩ := bind_ok_iff.mp hrun
    rw [pointerAt_of_le (by omega)]
    exact (Except.ok.inj hrun).symm

include h in
/-- The structure that is found is the first one without a name. -/
lemma freeEntry_of_findUnused (hb : IsEntries s b) (hj : findUnused s b = some j) :
    FreeEntry s b j := by
  obtain ⟨u, hu, hnames, hzero⟩ := h.named b hb
  unfold findUnused at hj
  rw [List.find?_range'_eq_some] at hj
  obtain ⟨hunused, hmem, hbefore⟩ := hj
  obtain ⟨i, hi, rfl⟩ := List.mem_range'.mp hmem
  have hi16 : 0 + 1 * i < 16 := by
    rw [file2blk] at hi
    omega
  have hge : u ≤ 0 + 1 * i := by
    by_contra hlt
    exact hnames _ (not_le.mp hlt) (beq_iff_eq.mp hunused)
  refine ⟨hb, hi16, fun l hl => ?_, fun w hw => hzero w (by omega)⟩
  have hl' := hbefore l (Nat.zero_le l) hl
  rwa [Bool.not_eq_true', beq_eq_false_iff_ne] at hl'

include h hf hd in
/-- The place that is found is a free entry of a block of the directory. -/
lemma createFileFrom_typed (hk : k ≤ cnt f)
    (hrun : createFileFrom n s f (cnt f) k = .ok (some g)) :
    ∃ b j, g = FilePtr.entry b j ∧ FreeEntry s b j := by
  induction k with
  | zero => cases hrun
  | succ k ih =>
    rw [createFileFrom] at hrun
    obtain ⟨b, hlast, hrun⟩ := bind_ok_iff.mp hrun
    obtain ⟨-, -, hrun⟩ := bind_ok_iff.mp hrun
    have hb : IsEntries s b := by
      rw [lastLink_pointer (by omega) hlast]
      exact (h.file f hf).entries hd _ (by omega)
    cases hj : findUnused s b with
    | none =>
      rw [hj] at hrun
      exact ih (by omega) hrun
    | some j =>
      rw [hj] at hrun
      obtain rfl := Option.some.inj (Except.ok.inj hrun)
      exact ⟨b, j, rfl, freeEntry_of_findUnused h hb hj⟩

include h hz hn hf hd in
/-- **`create_file`** gives the first structure without a name in a block for entries. -/
lemma createFile_typed {r : FilePtr × DiskImage} (hrun : createFile n s f = .ok r) :
    ∃ cnt' b j, Formats n s r.2 cnt' ∧ r.1 = FilePtr.entry b j ∧ FreeEntry r.2 b j := by
  have hblocks : (s.load f.size).toNat / 4096 = cnt f := by
    obtain ⟨hsize, hle⟩ := (hz f hf).dir hd
    rw [DiskImage.load_eq, hsize, BitVec.toNat_ofNat, Nat.mod_eq_of_lt (by omega)]
    omega
  unfold createFile at hrun
  simp only [hblocks] at hrun
  obtain ⟨o, hfrom, hrun⟩ := bind_ok_iff.mp hrun
  cases o with
  | some g =>
    obtain rfl := Except.ok.inj hrun
    obtain ⟨b, j, hg, hfree⟩ := createFileFrom_typed h hf hd le_rfl hfrom
    exact ⟨cnt, b, j, ⟨h, hz, fun _ hf => ⟨hf, rfl⟩⟩, hg, hfree⟩
  | none =>
    obtain ⟨q, hmake, hrun⟩ := bind_ok_iff.mp hrun
    obtain ⟨-, -, hrun⟩ := bind_ok_iff.mp hrun
    obtain rfl := Except.ok.inj hrun
    obtain ⟨cnt', hformats, hfree⟩ := makeLinkBlock_typed h hz hn hf hd hmake
    exact ⟨cnt', q.1, 0, hformats, rfl, hfree⟩

end Create

/-! ## A new file -/

section Fill

variable (h : Typed n s cnt) (hfree : FreeEntry s b j)
  (hg : AddsBlocks s (InStruct (FilePtr.entry b j)) s')

include hfree in
/-- The words of the structure. -/
lemma FreeEntry.word (hw : w < 64) : s.disk b (64 * j + w) = 0 := by
  have hlt := hfree.lt
  exact hfree.zero _ (by omega) (by omega)

include hfree in
/-- The structure has no name yet. -/
lemma FreeEntry.not_inImage : ¬ InImage s (FilePtr.entry b j) := fun hin =>
  (inImage_entry.mp hin).2.2 (nameByte_of_zero (hfree.word (w := 0) (by decide)))

include h hfree in
/-- The structure is apart from the files. -/
lemma FreeEntry.not_inStruct (hf : InImage s f) (hw : w < 64) :
    ¬ InStruct (FilePtr.entry b j) f.block (f.word + w) := by
  rintro ⟨hb, hlo, hhi⟩
  cases hf with
  | root =>
    cases hb
    exact h.not_isEntries_one hfree.block
  | @entry b' i he hi hname =>
    have hij : i = j := by
      simp only [FilePtr.entry] at hlo hhi
      omega
    have hbb : b' = b := hb
    subst hij hbb
    exact hfree.not_inImage (.entry he hi hname)

include h hfree hg in
lemma AddsBlocks.old_word (hf : InImage s f) (hw : w < 64) :
    s'.disk f.block (f.word + w) = s.disk f.block (f.word + w) :=
  hg.same _ _ (h.block_lt hf) (hfree.not_inStruct h hf hw)

include h hfree hg in
/-- The files that were there, and the new one. -/
lemma inImage_fill (hname : s'.nameByte (FilePtr.entry b j) 0 ≠ 0) :
    InImage s' f ↔ InImage s f ∨ f = FilePtr.entry b j := by
  constructor
  · intro hf
    cases hf with
    | root => exact .inl .root
    | @entry b' i hb hi hnm =>
      rcases Nat.lt_or_ge b' s.nextbno with hlt | hge
      · by_cases hin : InStruct (FilePtr.entry b j) b' (64 * i)
        · obtain ⟨hbb, hlo, hhi⟩ := hin
          refine .inr ?_
          simp only [FilePtr.entry] at hbb hlo hhi ⊢
          rw [hbb, FilePtr.mk.injEq]
          exact ⟨rfl, by omega⟩
        · refine .inl (.entry ((hg.isEntries_iff hlt).mp hb) hi ?_)
          rwa [nameByte_congr (f := FilePtr.entry b' i) (hg.same _ _ hlt hin)] at hnm
      · exact absurd (nameByte_of_zero (hg.new _ hge hb _)) hnm
  · rintro (hf | rfl)
    · have hold : s'.disk f.block f.word = s.disk f.block f.word :=
        hg.old_word h hfree hf (w := 0) (by decide)
      cases hf with
      | root => exact .root
      | entry hb hi hnm => exact .entry (hg.isEntries hb) hi (by rwa [nameByte_congr hold])
    · exact .entry (hg.isEntries hfree.block) hfree.lt hname

/-- What is left when a structure becomes a file without blocks. -/
structure FillsTyped (n : ℕ) (s : DiskImage) (cnt : FilePtr → ℕ) (g : FilePtr) (s' : DiskImage) :
    Prop where
  typed : Typed n s' (Function.update cnt g 0)
  but : Sized s cnt → SizedBut s' (Function.update cnt g 0) g
  mem : InImage s' g
  stay : FilesStay s s'

include h hfree hg in
/-- **A structure becomes a file.** -/
lemma Typed.fill (hs : Sound n s') (hname : s'.nameByte (FilePtr.entry b j) 0 ≠ 0)
    (hind : wordAt s'.disk (FilePtr.entry b j).type = ftypeDir →
      wordAt s'.disk (FilePtr.entry b j).indirect = 0) :
    FillsTyped n s cnt (FilePtr.entry b j) s' := by
  have hiff : ∀ f, InImage s' f ↔ InImage s f ∨ f = FilePtr.entry b j :=
    fun f => inImage_fill h hfree hg hname
  have hne : ∀ {f}, InImage s f → f ≠ FilePtr.entry b j := fun hf he =>
    hfree.not_inImage (he ▸ hf)
  have hindex : ∀ {i}, IsIndex s i → i ≠ b := fun hi he =>
    absurd ((he ▸ hi).2.symm.trans hfree.block.2) (by decide)
  refine ⟨⟨hs, h.ge.trans hg.next, ?_, ?_, fun i hi => ?_, ?_, fun i hi => ?_, fun f hf => ?_,
    fun f f' hf hf' => ?_⟩, fun hz f hf hfg => ?_, (hiff _).mpr (.inr rfl), fun f hf => ⟨?_, ?_⟩⟩
  · exact (hg.type 0 (Nat.zero_lt_of_lt h.one_lt)).trans h.boot
  · exact (hg.type 1 h.one_lt).trans h.super
  · exact (hg.type i (hi.2.trans_le h.ge)).trans (h.bmap i hi)
  · refine (hg.same 1 1 h.one_lt ?_).trans h.nblocks
    rintro ⟨hb, -⟩
    cases hb
    exact h.not_isEntries_one hfree.block
  · rcases Nat.lt_or_ge i s.nextbno with hlt | hge
    · have hi' := (hg.isEntries_iff hlt).mp hi
      by_cases hib : i = b
      · subst hib
        refine ⟨j + 1, hfree.lt, fun l hl => ?_, fun w hw hw' => ?_⟩
        · rcases Nat.lt_succ_iff_lt_or_eq.mp hl with hlj | rfl
          · have hold : s'.disk (FilePtr.entry i l).block (FilePtr.entry i l).word =
                s.disk (FilePtr.entry i l).block (FilePtr.entry i l).word :=
              hg.same _ _ hlt fun hin => absurd hin.2.1 (by simp only [FilePtr.entry]; omega)
            rw [nameByte_congr hold]
            exact hfree.named l hlj
          · exact hname
        · rw [hg.same _ _ hlt fun hin => absurd hin.2.2 (by simp only [FilePtr.entry]; omega)]
          exact hfree.zero w (by omega) hw'
      · have hsame : ∀ w, s'.disk i w = s.disk i w := fun w =>
          hg.same _ _ hlt fun hin => hib hin.1
        obtain ⟨u, hu, hnames, hzero⟩ := h.named i hi'
        refine ⟨u, hu, fun l hl => ?_, fun w hw hw' => (hsame w).trans (hzero w hw hw')⟩
        rw [nameByte_congr (f := FilePtr.entry i l) (hsame _)]
        exact hnames l hl
    · exact ⟨0, Nat.zero_le 16, fun l hl => absurd hl (Nat.not_lt_zero l),
        fun w _ _ => hg.new i hge hi w⟩
  · rcases (hiff f).mp hf with hold | rfl
    · rw [Function.update_of_ne (hne hold)]
      exact (h.file f hold).congr hg (h.block_lt hold)
        (fun w _ hw => hfree.not_inStruct h hold (by omega))
        fun hk i hin => hindex ((h.file f hold).index hk) hin.1
    · rw [Function.update_self]
      exact ⟨fun hk => absurd hk (by decide), fun hd _ => hind hd,
        fun _ i hi => absurd hi (Nat.not_lt_zero i)⟩
  · rcases (hiff f).mp hf with hold | rfl
    · rcases (hiff f').mp hf' with hold' | rfl
      · rw [Function.update_of_ne (hne hold), Function.update_of_ne (hne hold')]
        intro hk hk' he
        refine h.once f f' hold hold' hk hk' ?_
        have hw : wordAt s'.disk f.indirect = wordAt s.disk f.indirect :=
          hg.old_word h hfree hold (by decide : 44 < 64)
        have hw' : wordAt s'.disk f'.indirect = wordAt s.disk f'.indirect :=
          hg.old_word h hfree hold' (by decide : 44 < 64)
        rw [← hw, he, hw']
      · rw [Function.update_self]
        exact fun _ hk => absurd hk (by decide)
    · rw [Function.update_self]
      exact fun hk => absurd hk (by decide)
  · have hold := ((hiff f).mp hf).resolve_right hfg
    rw [Function.update_of_ne hfg]
    exact (hz f hold).congr (hg.old_word h hfree hold (by decide : 32 < 64))
      (hg.old_word h hfree hold (by decide : 33 < 64))
  · exact (hiff f).mpr (.inl hf)
  · exact hg.old_word h hfree hf (by decide : 33 < 64)

end Fill

/-! ## The blocks of a file -/

/-- A new block with bytes. -/
lemma addsBlocks_giveBytes (s : DiskImage) (bytes : List Char8) :
    AddsBlocks s (fun _ _ => False) (s.giveBytes bytes) where
  next := Nat.le_succ _
  type _ hlt := Function.update_of_ne hlt.ne _ _
  new b hge hb := by
    obtain rfl : b = s.nextbno := le_antisymm (Nat.lt_succ_iff.mp hb.1) hge
    have htype : BlockType.data = .file := (Function.update_self _ _ _).symm.trans hb.2
    cases htype
  same b w hlt _ := congrFun (giveBytes_disk_of_lt hlt) w

/-- What the loop of `write_file` leaves, with `m` blocks more. -/
structure ReadsTyped (n : ℕ) (s : DiskImage) (cnt : FilePtr → ℕ) (g : FilePtr) (m : ℕ)
    (s' : DiskImage) : Prop where
  typed : Typed n s' (Function.update cnt g (cnt g + m))
  but : SizedBut s cnt g → SizedBut s' (Function.update cnt g (cnt g + m)) g
  stay : FilesStay s s'
  size : wordAt s'.disk g.size = wordAt s.disk g.size

/-- **The loop of `write_file`** keeps the types, if the file has no indirect block before it needs
one. -/
lemma readBlocks_typed {m : ℕ} (hn : n ≤ 0x40000) (h : Typed n s cnt) (hg : InImage s g)
    (hreg : wordAt s.disk g.type ≠ ftypeDir) (hk : cnt g = k) (hm : dataBlocks data.length = m)
    (hclear : k + m ≤ 10 ∨ (k ≤ 10 → wordAt s.disk g.indirect = 0))
    (hrun : readBlocks n s g k data = .ok s') : ReadsTyped n s cnt g m s' := by
  induction m generalizing s cnt k data with
  | zero =>
    obtain rfl : data = [] := List.length_eq_zero_iff.mp (by unfold dataBlocks at hm; omega)
    rw [readBlocks] at hrun
    obtain ⟨-, -, hrun⟩ := bind_ok_iff.mp hrun
    obtain rfl := Except.ok.inj hrun
    rw [← Function.update_eq_self g cnt] at h
    refine ⟨h, fun hz => ?_, fun _ hf => ⟨hf, rfl⟩, rfl⟩
    rwa [Nat.add_zero, Function.update_eq_self]
  | succ m ih =>
    have hlen : 0 < data.length := by
      unfold dataBlocks at hm
      omega
    obtain ⟨x, l, rfl⟩ := List.exists_cons_of_length_pos hlen
    rw [readBlocks] at hrun
    obtain ⟨-, -, hrun⟩ := bind_ok_iff.mp hrun
    obtain ⟨q, hnext, hrun⟩ := bind_ok_iff.mp hrun
    obtain ⟨hroom, rfl⟩ := nextBlock_cases hnext
    obtain ⟨s2, hsave, hrun⟩ := bind_ok_iff.mp hrun
    -- the block with the bytes
    obtain ⟨s1, hs1⟩ : ∃ s1, s.giveBytes ((x :: l).take 4096) = s1 := ⟨_, rfl⟩
    have hgive : AddsBlocks s (fun _ _ => False) s1 := hs1 ▸ addsBlocks_giveBytes s _
    have hC : ∀ b w, (fun _ _ => False : ℕ → ℕ → Prop) b w →
        ¬ IsEntries s b ∧ ¬ IsIndex s b ∧ b ≠ 1 := fun _ _ hc => hc.elim
    have hroom' : s.nextbno < n := hroom
    have h1 : Typed n s1 cnt := h.keep hgive hC (hs1 ▸ h.sound.giveBytes hroom')
    have hg1 : InImage s1 g := (hgive.inImage_iff (onlyFields_of_not hC)).mpr hg
    have hword : ∀ w, s1.disk g.block w = s.disk g.block w := fun w => hgive.word_eq h hC hg
    have hreg1 : wordAt s1.disk g.type ≠ ftypeDir := (hword _).trans_ne hreg
    have hlt1 : s.nextbno < s1.nextbno := by
      rw [← hs1]
      exact Nat.lt_succ_self _
    -- the pointer to it
    change saveBlockLink n (s.giveBytes ((x :: l).take 4096)) g k s.nextbno = .ok s2 at hsave
    rw [hs1, ← hk] at hsave
    have hlink := saveBlockLink_typed h1 hg1 hn rfl hlt1 (fun hd => absurd hd hreg1)
      (fun h10 => (hword _).trans (hclear.elim (fun hle => by omega) fun h0 => h0 (by omega))) hsave
    have hg2 : InImage s2 g := (hlink.adds.inImage_iff (onlyFields_touched h1 hg1)).mpr hg1
    have hdrop : dataBlocks ((x :: l).drop 4096).length = m := by
      rw [List.length_drop]
      unfold dataBlocks at hm ⊢
      omega
    have hrest := ih hlink.typed hg2 (hlink.type.trans_ne hreg1)
      ((Function.update_self _ _ _).trans (by rw [hk])) hdrop (hclear.imp (fun hle => by omega)
        fun h0 hle => (hlink.indirect (by omega)).trans ((hword _).trans (h0 (by omega)))) hrun
    obtain ⟨htyped, hbut, hstay, hsize⟩ := hrest
    rw [Function.update_self, Function.update_idem, Nat.add_assoc, Nat.add_comm 1 m] at htyped hbut
    refine ⟨htyped, fun hz => hbut ((hz.keep h hgive hC).touch h1 hg1 hlink.adds), ?_,
      (hsize.trans hlink.size).trans (hword _)⟩
    exact ((hgive.filesStay h hC).trans (FilesStay.touch h1 hg1 hlink.adds hlink.type)).trans hstay

/-! ## Names -/

section Head

variable {size type : Word}

/-- A name of the host stays in its structure. -/
lemma withHead_disk_of_not (hlen : name.length ≤ 255) (hw : ¬ InStruct g b w) :
    (s.withHead g name size type).disk b w = s.disk b w := by
  rw [withHead_disk fun he => hw ⟨he.1, by omega, by omega⟩, storeBytes_disk_of_disjoint]
  by_contra hne
  rw [List.length_append, List.length_singleton] at hne
  push Not at hne
  exact hw ⟨hne.1, by omega, by omega⟩

lemma withHead_name (hname : name.getD 0 0 ≠ 0) (hzero : s.disk g.block g.word = 0) :
    (s.withHead g name size type).nameByte g 0 ≠ 0 := by
  have hword : (s.withHead g name size type).disk g.block g.word =
      (s.storeBytes g.block (4 * g.word) (name ++ [0])).disk g.block g.word :=
    withHead_disk fun he => by omega
  have hget := get_storeBytes (s := s) (b := g.block) (k := 4 * g.word) (i := 0) (l := name ++ [0])
    (by rwa [Nat.add_zero, Nat.mul_div_cancel_left _ (by decide)])
  rw [nameByte_congr hword]
  exact (hget.trans (getD_append_zero name 0)).trans_ne hname

/-- A name of at most 176 bytes leaves the pointer to the indirect block 0. -/
lemma withHead_indirect (hlen : name.length ≤ 176) (hzero : wordAt s.disk g.indirect = 0) :
    wordAt (s.withHead g name size type).disk g.indirect = 0 := by
  have hword : wordAt (s.withHead g name size type).disk g.indirect =
      (s.storeBytes g.block (4 * g.word) (name ++ [0])).disk g.block (g.word + 44) :=
    withHead_disk fun he => by
      simp only [FilePtr.indirect] at he
      omega
  rw [hword]
  refine Endian.eq_of_byte fun k hk => ?_
  have hdiv : (4 * g.word + (176 + k)) / 4 = g.word + 44 := by omega
  have hmod : (4 * g.word + (176 + k)) % 4 = k := by omega
  have hget := get_storeBytes (s := s) (b := g.block) (k := 4 * g.word) (i := 176 + k)
    (l := name ++ [0]) (by rw [hdiv]; exact hzero)
  rw [ByteWords.get, hdiv, hmod, getD_append_zero, List.getD_eq_default _ _ (by omega)] at hget
  exact hget.trans (by simp)

end Head

namespace HostDir

/-- The names are those of a host: not empty, and of at most 255 bytes. -/
def HostNames : HostDir → Prop
  | .nil => True
  | .file name _ rest | .link name _ rest =>
    (name.getD 0 0 ≠ 0 ∧ name.length ≤ 255) ∧ rest.HostNames
  | .dir name children rest =>
    (name.getD 0 0 ≠ 0 ∧ name.length ≤ 255) ∧ children.HostNames ∧ rest.HostNames

/-- No name is written over a pointer to an indirect block that is needed. -/
def Clear : HostDir → Prop
  | .nil => True
  | .file name data rest => (name.length ≤ 176 ∨ dataBlocks data.length ≤ 10) ∧ rest.Clear
  | .link _ _ rest => rest.Clear
  | .dir _ children rest => children.Clear ∧ rest.Clear

end HostDir

/-! ## Entries -/

section Entry

variable (h : Typed n s cnt) (hz : Sized s cnt) (hn : n ≤ 0x40000) (hf : InImage s f)
  (hd : wordAt s.disk f.type = ftypeDir)

include h hz hn hf hd in
/-- **`write_file`** keeps the types. -/
lemma writeFile_typed (hname : name.getD 0 0 ≠ 0) (hlen : name.length ≤ 255)
    (hclear : name.length ≤ 176 ∨ dataBlocks data.length ≤ 10)
    (hrun : writeFile n s f name data = .ok s') : ∃ cnt', Formats n s s' cnt' := by
  unfold writeFile at hrun
  obtain ⟨⟨g, s1⟩, hcreate, hrun⟩ := bind_ok_iff.mp hrun
  obtain ⟨cnt1, b, j, hformats, hg, hfree⟩ := createFile_typed h hz hn hf hd hcreate
  dsimp only at hg hformats hfree
  subst hg
  have h1 := hformats.typed
  obtain ⟨s2, hs2⟩ : ∃ s2, s1.withHead (FilePtr.entry b j) name (BitVec.ofNat 32 data.length)
    ftypeReg = s2 := ⟨_, rfl⟩
  change readBlocks n (s1.withHead (FilePtr.entry b j) name (BitVec.ofNat 32 data.length)
    ftypeReg) (FilePtr.entry b j) 0 data = .ok s' at hrun
  rw [hs2] at hrun
  have hadds : AddsBlocks s1 (InStruct (FilePtr.entry b j)) s2 := by
    rw [← hs2]
    exact ⟨le_rfl, fun _ _ => rfl, fun i hge hi => absurd hi.1 (not_lt.mpr hge),
      fun i w _ hw => withHead_disk_of_not hlen hw⟩
  have htype : wordAt s2.disk (FilePtr.entry b j).type = ftypeReg := hs2 ▸ withHead_type
  have hreg : wordAt s2.disk (FilePtr.entry b j).type ≠ ftypeDir := htype.trans_ne (by decide)
  have hsound : Sound n s2 := hs2 ▸ h1.sound.withHead hfree.block.1
  have hnamed : s2.nameByte (FilePtr.entry b j) 0 ≠ 0 :=
    hs2 ▸ withHead_name hname (hfree.word (w := 0) (by decide))
  have hfill := h1.fill hfree hadds hsound hnamed fun hdir => absurd hdir hreg
  have hread := readBlocks_typed hn hfill.typed hfill.mem hreg (Function.update_self _ _ _) rfl
    (hclear.symm.imp (fun hle => by omega) fun hle _ =>
      hs2 ▸ withHead_indirect hle (hfree.word (by decide : 44 < 64))) hrun
  have hsize : wordAt s'.disk (FilePtr.entry b j).size = BitVec.ofNat 32 data.length := by
    rw [hread.size, ← hs2]
    exact withHead_size
  refine ⟨_, hread.typed, (hread.but (hfill.but hformats.sized)).sized ⟨fun hdir => ?_, fun _ hbig => ?_⟩,
    (hformats.stay.trans hfill.stay).trans hread.stay⟩
  · exact absurd ((hread.stay _ hfill.mem).2.symm.trans hdir) hreg
  · rw [hsize, BitVec.toNat_ofNat] at hbig
    rw [Function.update_self, Function.update_self]
    have hle := Nat.mod_le data.length (2 ^ 32)
    unfold dataBlocks
    omega

include h hz hn hf hd in
/-- **`write_symlink`** keeps the types. -/
lemma writeSymlink_typed (hname : name.getD 0 0 ≠ 0) (hlen : name.length ≤ 255)
    (hrun : writeSymlink n s f name data = .ok s') : ∃ cnt', Formats n s s' cnt' := by
  unfold writeSymlink at hrun
  obtain ⟨⟨g, s1⟩, hcreate, hrun⟩ := bind_ok_iff.mp hrun
  obtain ⟨cnt1, b, j, hformats, hg, hfree⟩ := createFile_typed h hz hn hf hd hcreate
  dsimp only at hg hformats hfree
  subst hg
  have h1 := hformats.typed
  have hlt := hfree.block.1
  obtain ⟨-, -, hrun⟩ := bind_ok_iff.mp hrun
  obtain ⟨q, hnext, hrun⟩ := bind_ok_iff.mp hrun
  obtain ⟨hroom, rfl⟩ := nextBlock_cases hnext
  -- the block with the target, and the structure
  obtain ⟨t, ht⟩ : ∃ t, s1.storeBytes s1.nextbno 0 (data.take 4096) = t := ⟨_, rfl⟩
  obtain ⟨s2, hs2⟩ : ∃ s2, (t.withHead (FilePtr.entry b j) name
    (BitVec.ofNat 32 (data.take 4096).length) ftypeLnk).give .data = s2 := ⟨_, rfl⟩
  have hroom' : s1.nextbno < n := hroom
  have htnext : t.nextbno = s1.nextbno := by
    rw [← ht]
    rfl
  have htsame : ∀ i, i ≠ s1.nextbno → t.disk i = s1.disk i := fun i hi =>
    ht ▸ storeBytes_disk_of_ne hi
  have hzero : ∀ w < 64, t.disk b (64 * j + w) = 0 := fun w hw => by
    rw [htsame b hlt.ne]
    exact hfree.word hw
  change saveBlockLink n (((s1.storeBytes s1.nextbno 0 (data.take 4096)).withHead (FilePtr.entry b j)
    name (BitVec.ofNat 32 (data.take 4096).length) ftypeLnk).give .data) (FilePtr.entry b j) 0
    s1.nextbno = .ok s' at hrun
  rw [ht, hs2] at hrun
  have hnext2 : s2.nextbno = s1.nextbno + 1 := by
    rw [← hs2, give_nextbno, withHead_nextbno, htnext]
  have htype2 : s2.type = Function.update s1.type s1.nextbno .data := by
    rw [← hs2, ← ht]
    rfl
  have hword : ∀ i w, s2.disk i w = (t.withHead (FilePtr.entry b j) name
      (BitVec.ofNat 32 (data.take 4096).length) ftypeLnk).disk i w := fun i w => by
    rw [← hs2]
    rfl
  have hadds : AddsBlocks s1 (InStruct (FilePtr.entry b j)) s2 := by
    refine ⟨by omega, fun i hi => by rw [htype2, Function.update_of_ne hi.ne], fun i hge hi => ?_,
      fun i w hi hw => ?_⟩
    · obtain rfl : i = s1.nextbno := by
        have := hi.1
        omega
      have htype := hi.2
      rw [htype2, Function.update_self] at htype
      cases htype
    · rw [hword, withHead_disk_of_not hlen hw, htsame i hi.ne]
  have hsound : Sound n s2 := by
    refine ⟨by omega, by omega, fun i w hi => ?_⟩
    rw [hword, withHead_disk_of_ne (by simp only [FilePtr.entry]; omega), htsame i (by omega)]
    exact h1.sound.fresh i w (by omega)
  have htype : wordAt s2.disk (FilePtr.entry b j).type = ftypeLnk := by
    rw [← hs2]
    exact withHead_type
  have hreg : wordAt s2.disk (FilePtr.entry b j).type ≠ ftypeDir := htype.trans_ne (by decide)
  have hnamed : s2.nameByte (FilePtr.entry b j) 0 ≠ 0 := by
    rw [← hs2]
    exact withHead_name hname (hzero 0 (by decide))
  have hfill := h1.fill hfree hadds hsound hnamed fun hdir => absurd hdir hreg
  have hlink := saveBlockLink_typed hfill.typed hfill.mem hn (Function.update_self _ _ _)
    (by omega) (fun hdir => absurd hdir hreg) (fun h10 => absurd h10 (by decide)) hrun
  have hsize : wordAt s'.disk (FilePtr.entry b j).size =
      BitVec.ofNat 32 (data.take 4096).length := by
    rw [hlink.size, ← hs2]
    exact withHead_size
  refine ⟨_, hlink.typed, ((hfill.but hformats.sized).touch hfill.typed hfill.mem hlink.adds).sized
    ⟨fun hdir => ?_, fun _ hbig => ?_⟩, (hformats.stay.trans hfill.stay).trans
      (FilesStay.touch hfill.typed hfill.mem hlink.adds hlink.type)⟩
  · exact absurd (hlink.type.symm.trans hdir) hreg
  · have hle := List.length_take_le 4096 data
    rw [hsize, BitVec.toNat_ofNat] at hbig
    omega

/-- **The head of a new directory**: its name and its type. -/
structure DirHead (n : ℕ) (s : DiskImage) (b j : ℕ) (s' : DiskImage) : Prop where
  adds : AddsBlocks s (InStruct (FilePtr.entry b j)) s'
  next : s'.nextbno = s.nextbno
  sound : Sound n s'
  named : s'.nameByte (FilePtr.entry b j) 0 ≠ 0
  zero : ∀ w, 32 ≤ w → w < 64 → w ≠ 33 → s'.disk b (64 * j + w) = 0
  type : wordAt s'.disk (FilePtr.entry b j).type = ftypeDir

/-- Name and type in a free entry make the head of a directory. -/
lemma FreeEntry.dirHead {b j : ℕ} (hfree : FreeEntry s b j) (hsound : Sound n s)
    (hname : name.getD 0 0 ≠ 0) : DirHead n s b j
      ((s.strncpy (FilePtr.entry b j) name (maxnamelen - 1)).store (FilePtr.entry b j).type ftypeDir) := by
  obtain ⟨l, hl⟩ : ∃ l, (name ++ List.replicate 127 0).take 127 = l := ⟨_, rfl⟩
  have hlen : l.length ≤ 127 := hl ▸ List.length_take_le 127 _
  obtain ⟨t, ht⟩ : ∃ t, s.storeBytes b (4 * (64 * j)) l = t := ⟨_, rfl⟩
  have hcopy : s.strncpy (FilePtr.entry b j) name (maxnamelen - 1) = t := by
    rw [← ht, ← hl]
    rfl
  rw [hcopy]
  obtain ⟨s2, hs2⟩ : ∃ s2, t.store (FilePtr.entry b j).type ftypeDir = s2 := ⟨_, rfl⟩
  rw [hs2]
  have hstore : ∀ i w, ¬ (i = b ∧ w = 64 * j + 33) → s2.disk i w = t.disk i w := fun i w hw =>
    hs2 ▸ store_disk_of_ne hw
  have hcopied : ∀ i w, ¬ (i = b ∧ 64 * j ≤ w ∧ w < 64 * j + 32) → t.disk i w = s.disk i w :=
    fun i w hw => by
      rw [← ht, storeBytes_disk_of_disjoint]
      omega
  refine ⟨⟨by rw [← hs2, ← ht]; rfl, fun i _ => by rw [← hs2, ← ht]; rfl, fun i hge hi => ?_,
    fun i w _ hw => ?_⟩, by rw [← hs2, ← ht]; rfl, ?_, ?_, fun w hw hw' hne => ?_, ?_⟩
  · rw [← hs2, ← ht] at hi
    exact absurd hi.1 (not_lt.mpr hge)
  · rw [hstore i w fun he => hw ⟨he.1, by simp only [FilePtr.entry]; omega⟩,
      hcopied i w fun he => hw ⟨he.1, by simp only [FilePtr.entry]; omega⟩]
  · rw [← hs2, ← ht]
    exact (hsound.storeBytes hfree.block.1).store hfree.block.1
  · have hget := get_storeBytes (s := s) (b := b) (k := 4 * (64 * j)) (i := 0) (l := l)
      (by rw [Nat.add_zero, Nat.mul_div_cancel_left _ (by decide)]; exact hfree.word (w := 0) (by decide))
    rw [← hl, getD_take_replicate, if_pos (by decide), hl, ht] at hget
    rw [nameByte_congr (s := t) (hstore _ _ fun he => by simp only [FilePtr.entry] at he; omega)]
    exact hget.trans_ne hname
  · rw [hstore b _ fun he => hne (by omega), hcopied b _ fun he => by omega]
    exact hfree.word hw'
  · rw [← hs2]
    exact wordAt_store _ _ _

include h hz hn hf hd in
/-- **`write_directory`** before the entries: the new structure is a directory. -/
lemma makeDirectory_typed {r : FilePtr × DiskImage} (hname : name.getD 0 0 ≠ 0)
    (hrun : makeDirectory n s f name = .ok r) : ∃ cnt', Formats n s r.2 cnt' ∧ InImage r.2 r.1 ∧
      wordAt r.2.disk r.1.type = ftypeDir := by
  unfold makeDirectory at hrun
  obtain ⟨⟨g, s1⟩, hcreate, hrun⟩ := bind_ok_iff.mp hrun
  obtain ⟨cnt1, b, j, hformats, hg, hfree⟩ := createFile_typed h hz hn hf hd hcreate
  dsimp only at hg hformats hfree hrun
  subst hg
  split_ifs at hrun with hend
  obtain rfl := Except.ok.inj hrun
  have hhead := hfree.dirHead hformats.typed.sound hname
  have hfill := hformats.typed.fill hfree hhead.adds hhead.sound hhead.named fun _ =>
    hhead.zero 44 (by decide) (by decide) (by decide)
  refine ⟨_, ⟨hfill.typed, (hfill.but hformats.sized).sized ⟨fun _ => ?_, fun hne => absurd hhead.type hne⟩,
    hformats.stay.trans hfill.stay⟩, hfill.mem, hhead.type⟩
  rw [Function.update_self]
  exact ⟨hhead.zero 32 (by decide) (by decide) (by decide), Nat.zero_le _⟩

end Entry

lemma Formats.trans (h : Formats n s s1 cnt) (h' : Formats n s1 s' cnt') : Formats n s s' cnt' :=
  ⟨h'.typed, h'.sized, h.stay.trans h'.stay⟩

/-- **`write_directory`** keeps the types. -/
theorem writeEntries_typed {d : HostDir} (hn : n ≤ 0x40000) (h : Typed n s cnt) (hz : Sized s cnt)
    (hf : InImage s f) (hd : wordAt s.disk f.type = ftypeDir) (hnames : d.HostNames) (hclear : d.Clear)
    (hrun : writeEntries n s f d = .ok s') : ∃ cnt', Formats n s s' cnt' := by
  induction d generalizing s s' f cnt with
  | nil =>
    obtain rfl := Except.ok.inj hrun
    exact ⟨cnt, h, hz, fun _ hf => ⟨hf, rfl⟩⟩
  | file name data rest ih =>
    obtain ⟨s1, hfile, hrun⟩ := bind_ok_iff.mp hrun
    obtain ⟨cnt1, h1⟩ := writeFile_typed h hz hn hf hd hnames.1.1 hnames.1.2 hclear.1 hfile
    obtain ⟨hf1, htype⟩ := h1.stay f hf
    obtain ⟨cnt2, h2⟩ := ih h1.typed h1.sized hf1 (htype.trans hd) hnames.2 hclear.2 hrun
    exact ⟨cnt2, h1.trans h2⟩
  | link name target rest ih =>
    obtain ⟨s1, hlink, hrun⟩ := bind_ok_iff.mp hrun
    obtain ⟨cnt1, h1⟩ := writeSymlink_typed h hz hn hf hd hnames.1.1 hnames.1.2 hlink
    obtain ⟨hf1, htype⟩ := h1.stay f hf
    obtain ⟨cnt2, h2⟩ := ih h1.typed h1.sized hf1 (htype.trans hd) hnames.2 hclear hrun
    exact ⟨cnt2, h1.trans h2⟩
  | dir name children rest ihc ihr =>
    obtain ⟨r, hmake, hrun⟩ := bind_ok_iff.mp hrun
    obtain ⟨s2, hin, hrun⟩ := bind_ok_iff.mp hrun
    obtain ⟨cnt1, h1, hr, hdir⟩ := makeDirectory_typed h hz hn hf hd hnames.1.1 hmake
    obtain ⟨cnt2, h2⟩ := ihc h1.typed h1.sized hr hdir hnames.2.1 hclear.1 hin
    obtain ⟨hf2, htype⟩ := (h1.stay.trans h2.stay) f hf
    obtain ⟨cnt3, h3⟩ := ihr h2.typed h2.sized hf2 (htype.trans hd) hnames.2.2 hclear.2 hrun
    exact ⟨cnt3, (h1.trans h2).trans h3⟩

/-! ## The program -/

/-- The types that `init_disk` sets. -/
lemma initDisk_type (hrun : initDisk n = .ok s) (b : ℕ) : s.type b =
    if b = 0 then .boot else if b = 1 then .super else if b < 2 + nbitblock n then .bmap
      else .free := by
  unfold initDisk at hrun
  obtain ⟨-, -, hrun⟩ := bind_ok_iff.mp hrun
  obtain rfl := Except.ok.inj hrun
  by_cases hdiv : n ≠ nbitblock n * 32768
  · rw [if_pos hdiv]
    rfl
  · rw [if_neg hdiv]
    rfl

/-- The disk before there are entries in it. -/
lemma IsFresh.typed (h : IsFresh n s) (hrun : initDisk n = .ok s) :
    Typed n s (fun _ => 0) ∧ Sized s fun _ => 0 := by
  have htype := initDisk_type hrun
  have hentries : ∀ b, ¬ IsEntries s b := fun b hb => by
    have hfile := htype b
    rw [hb.2] at hfile
    split_ifs at hfile
  have hroot : ∀ {f}, InImage s f → f = FilePtr.root := fun hf =>
    hf.block.resolve_right (hentries _)
  have hind : wordAt s.disk FilePtr.root.indirect = 0 := h.dir.linked.noIndex (Nat.zero_le 10)
  refine ⟨⟨h.sound, h.next.ge, htype 0, htype 1, fun b hb => ?_, h.super.nblocks,
    fun b hb => absurd hb (hentries b), fun f hf => ?_, fun f g _ _ hk => absurd hk (by decide)⟩,
    fun f hf => ?_⟩
  · have hge := hb.1
    rw [htype, if_neg (by omega), if_neg (by omega), if_pos hb.2]
  · obtain rfl := hroot hf
    exact ⟨fun hk => absurd hk (by decide), fun _ _ => hind,
      fun _ i hi => absurd hi (Nat.not_lt_zero i)⟩
  · obtain rfl := hroot hf
    exact ⟨fun _ => ⟨h.dir.size, Nat.zero_le _⟩, fun hne => absurd h.super.type hne⟩

/-- The parts of a run of the program: the disk without entries, the entries, the bitmap. -/
structure FormatRun (n : ℕ) (args : HostDir) (s0 s1 s : DiskImage) : Prop where
  init : initDisk n = .ok s0
  fresh : IsFresh n s0
  entries : writeEntries n s0 FilePtr.root args = .ok s1
  flush : flushBitmap n s1 = .ok s

/-- The three stages of the formatter. -/
lemma formatDisk_run {args : HostDir} (hn : 4 ≤ n) (hrun : formatDisk n args = .ok s) :
    ∃ s0 s1, FormatRun n args s0 s1 s := by
  unfold formatDisk at hrun
  obtain ⟨s0, hinit, hrun⟩ := bind_ok_iff.mp hrun
  have hentries : (writeEntries n s0 FilePtr.root args >>= fun s => flushBitmap n s) = .ok s := by
    cases args with
    | nil => cases hrun
    | file name data rest => exact hrun
    | link name target rest => exact hrun
    | dir name children rest => exact hrun
  obtain ⟨s1, hwrite, hflush⟩ := bind_ok_iff.mp hentries
  obtain ⟨s0', hinit', hfresh⟩ := initDisk_fresh hn
  obtain rfl : s0 = s0' := Except.ok.inj (hinit.symm.trans hinit')
  exact ⟨s0, s1, hinit, hfresh, hwrite, hflush⟩

/-- The bitmap is written: no other block changes. -/
lemma Typed.flushed {c' : Blocks} (h : Typed n s cnt)
    (hsame : ∀ b w, ¬ IsReserved n b → c' b w = s.disk b w) :
    AddsBlocks s (fun b _ => IsReserved n b) { s with disk := c' } ∧
      ∀ b w, (fun b _ => IsReserved n b : ℕ → ℕ → Prop) b w →
        ¬ IsEntries s b ∧ ¬ IsIndex s b ∧ b ≠ 1 := by
  refine ⟨⟨le_rfl, fun _ _ => rfl, fun b hge hb => absurd hb.1 (not_lt.mpr hge),
    fun b w _ hb => hsame b w hb⟩, fun b _ hb => ⟨fun he => ?_, fun he => ?_, fun he => ?_⟩⟩
  · exact absurd ((h.bmap b hb).symm.trans he.2) (by decide)
  · exact absurd ((h.bmap b hb).symm.trans he.2) (by decide)
  · exact absurd hb.1 (by rw [he]; decide)

/-- **The disk that the program leaves**: the types of its blocks match their use. -/
theorem formatDisk_typed {args : HostDir} (hn : 4 ≤ n) (hmax : n ≤ 0x40000) (hnames : args.HostNames)
    (hclear : args.Clear) (hrun : formatDisk n args = .ok s) :
    ∃ cnt, Typed n s cnt ∧ Sized s cnt := by
  obtain ⟨s0, s1, hr⟩ := formatDisk_run hn hrun
  obtain ⟨h0, hz0⟩ := hr.fresh.typed hr.init
  obtain ⟨cnt, h1⟩ := writeEntries_typed hmax h0 hz0 .root hr.fresh.super.type hnames hclear hr.entries
  -- the bitmap
  obtain ⟨c', hbits, hsame, -⟩ := flushBits_spec (c := s1.disk) hn h1.typed.sound.le
  have hflush := hr.flush
  unfold flushBitmap at hflush
  rw [hbits] at hflush
  obtain rfl := Except.ok.inj hflush
  obtain ⟨hadds, hC⟩ := h1.typed.flushed hsame
  refine ⟨cnt, h1.typed.keep hadds hC ⟨h1.typed.sound.pos, h1.typed.sound.le, fun b w hb => ?_⟩,
    h1.sized.keep h1.typed hadds hC⟩
  exact (hsame b w fun hr => absurd (hr.2.trans_le (h1.typed.ge.trans hb)) (lt_irrefl b)).trans
    (h1.typed.sound.fresh b w hb)

end MosVolca
