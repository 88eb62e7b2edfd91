import MosVolca.Fs.File

/-!
# Who owns a block

The files that the contents of the blocks describe, and the blocks that they hold. The entries are
the structures in the blocks of directories, used or not, and the root. Here nothing runs: the
contents of all blocks are given, and the results say when they stay consistent if some words are
changed.

## Main definitions

* `MosVolca.Slot`, `MosVolca.Holds` — the block pointers of a file and what they point to.
* `MosVolca.Dirent`, `MosVolca.Live` — the structures in directories, and those with a name.
* `MosVolca.Consistent` — every held block is a block for data that is in use, and is held once.

## Main results

* `MosVolca.Consistent.place_inj` — no word is a field of two entries.
* `MosVolca.Consistent.update` — a change keeps the consistency if what is held afterwards was held
  before or is new.
-/

namespace MosVolca

/-- The words of all blocks. -/
abbrev Blocks := TwoLevel.Store Word

variable {c c' : Blocks} {f g d : FilePtr} {b i j : ℕ}

/-- The word at a place. -/
def wordAt (c : Blocks) (p : WordPtr) : Word := c p.block p.word

/-- The contents with one word replaced. -/
def putWord (c : Blocks) (p : WordPtr) (w : Word) : Blocks := TwoLevel.write c p.block p.word w

/-- The word is read back. -/
@[simp] lemma wordAt_putWord_self (c : Blocks) (p : WordPtr) (w : Word) :
    wordAt (putWord c p w) p = w := TwoLevel.write_same c p.block p.word w

/-- The other words stay. -/
lemma wordAt_putWord_of_ne {p q : WordPtr} {w : Word} (h : q ≠ p) :
    wordAt (putWord c p w) q = wordAt c q := by
  refine TwoLevel.write_of_ne ?_
  by_contra hcon
  push Not at hcon
  exact h (by cases p; cases q; simp_all)

/-! ## Files -/

/-- A block pointer of a file: the one for its block `i`, or `f_indirect`. -/
inductive Slot
  | data (i : ℕ)
  | indirect
  deriving DecidableEq

/-- A word that belongs to a file: a word of the structure, or one of the indirect block. -/
inductive Field
  | head (k : ℕ)
  | far (i : ℕ)
  deriving DecidableEq

/-- The field where a block pointer is kept. -/
def Slot.field : Slot → Field
  | .data i => if i < ndirect then .head (34 + i) else .far i
  | .indirect => .head 44

/-- The place of a field. -/
def placeOf (c : Blocks) (f : FilePtr) : Field → WordPtr
  | .head k => ⟨f.block, f.word + k⟩
  | .far i => ⟨(wordAt c f.indirect).toNat, i⟩

/-- The file has the field. -/
def HasField (c : Blocks) (f : FilePtr) : Field → Prop
  | .head k => k < 64
  | .far i => ndirect ≤ i ∧ i < nindirect ∧ wordAt c f.indirect ≠ 0

/-- The fields that say which blocks a file has: size, type and block pointers. -/
def Field.Meta : Field → Prop
  | .head k => 32 ≤ k ∧ k ≤ 44
  | .far _ => True

/-- The block pointer `p` of `f` is there and points to block `b`. -/
def Holds (c : Blocks) (f : FilePtr) (p : Slot) (b : ℕ) : Prop :=
  HasField c f p.field ∧ wordAt c (placeOf c f p.field) ≠ 0 ∧
    (wordAt c (placeOf c f p.field)).toNat = b

/-- The number of blocks of a directory. -/
def sizeBlocksOf (c : Blocks) (f : FilePtr) : ℕ := (wordAt c f.size).toNat / 4096

/-- The block `b` is a block of the directory `d`. -/
def DirBlock (c : Blocks) (d : FilePtr) (b : ℕ) : Prop :=
  wordAt c d.type = ftypeDir ∧ ∃ i < sizeBlocksOf c d, Holds c d (.data i) b

/-- The root and the structures in the blocks of directories. -/
inductive Dirent (c : Blocks) : FilePtr → Prop
  | root : Dirent c FilePtr.root
  | child {d : FilePtr} {b j : ℕ} (hd : Dirent c d) (hb : DirBlock c d b) (hj : j < file2blk) :
      Dirent c (FilePtr.entry b j)

/-- The first byte of the name is not 0. -/
def Named (c : Blocks) (f : FilePtr) : Prop := (c f.block f.word).setWidth 8 ≠ (0 : Char8)

/-- The files: the root and the structures with a name in the blocks of directories that are files
themselves. -/
inductive Live (c : Blocks) : FilePtr → Prop
  | root : Live c FilePtr.root
  | child {d : FilePtr} {b j : ℕ} (hd : Live c d) (hb : DirBlock c d b) (hj : j < file2blk)
      (hname : Named c (FilePtr.entry b j)) : Live c (FilePtr.entry b j)

lemma Live.entry (h : Live c f) : Dirent c f := by
  induction h with
  | root => exact .root
  | child _ hb hj _ ih => exact .child ih hb hj

/-! ## Consistency -/

/-- `super->s_nblocks`. -/
def nblocksOf (c : Blocks) : ℕ := (c 1 1).toNat

/-- The first block beyond the bitmap blocks. -/
def firstData (c : Blocks) : ℕ := nblocksOf c / 32768 + 3

/-- The words of the bitmap. -/
def bitsOf (c : Blocks) (k : ℕ) : Word := c (2 + k / 1024) (k % 1024)

/-- There is such a block, and it is free in the bitmap. -/
def IsFree (c : Blocks) (b : ℕ) : Prop := b < nblocksOf c ∧ Bitmap.test (bitsOf c) b = true

/-- The block can be held: it is a block for data, in use, and there is such a block. -/
structure Usable (c : Blocks) (b : ℕ) : Prop where
  ge : firstData c ≤ b
  lt : b < nblocksOf c
  used : ¬ IsFree c b

/-- The blocks that entries hold are usable and are held once, and the blocks up to the bitmap are
in use. -/
structure Consistent (c : Blocks) : Prop where
  usable : ∀ {f p b}, Dirent c f → Holds c f p b → Usable c b
  once : ∀ {f p g q b}, Dirent c f → Dirent c g → Holds c f p b → Holds c g q b → f = g ∧ p = q
  reserved : ∀ b < firstData c, ¬ IsFree c b

/-- Every word of the block is 0. -/
def Blank (c : Blocks) (b : ℕ) : Prop := ∀ i < 1024, c b i = 0

lemma Holds.hasField {p : Slot} (h : Holds c f p b) : HasField c f p.field := h.1

/-- A file has at most `NINDIRECT` blocks. -/
lemma Holds.lt_nindirect {i : ℕ} (h : Holds c f (.data i) b) : i < nindirect := by
  have hfield := h.hasField
  simp only [Slot.field] at hfield
  split_ifs at hfield with h10
  · exact h10.trans (by decide)
  · exact hfield.2.1

/-- `f_indirect` holds the block it points to. -/
lemma holds_indirect (h : wordAt c f.indirect ≠ 0) :
    Holds c f .indirect (wordAt c f.indirect).toNat := ⟨(by decide : 44 < 64), h, rfl⟩

lemma Blank.word_head (h : Blank c b) (hj : j < file2blk) {k : ℕ} (hk : k < 64) :
    c b ((FilePtr.entry b j).word + k) = 0 := by
  have hj : j < 16 := hj
  exact h _ (by simp only [FilePtr.entry]; omega)

/-- A structure of zeros holds nothing. -/
lemma Blank.not_holds (h : Blank c b) (hj : j < file2blk) {p : Slot} {v : ℕ} :
    ¬ Holds c (FilePtr.entry b j) p v := by
  rintro ⟨hfield, hne, -⟩
  cases hp : p.field with
  | head k =>
    rw [hp] at hfield hne
    exact hne (h.word_head hj hfield)
  | far i =>
    rw [hp] at hfield
    exact hfield.2.2 (h.word_head hj (by decide : 44 < 64))

/-- A structure of zeros is not a directory. -/
lemma Blank.not_dirBlock (h : Blank c b) (hj : j < file2blk) {v : ℕ} :
    ¬ DirBlock c (FilePtr.entry b j) v := fun hd => h.not_holds hj hd.2.choose_spec.2

/-- An entry is the root or in a block that a directory holds. -/
lemma Dirent.cases (h : Dirent c f) : f = FilePtr.root ∨
    ∃ d i b j, Dirent c d ∧ Holds c d (.data i) b ∧ j < file2blk ∧ f = FilePtr.entry b j := by
  cases h with
  | root => exact .inl rfl
  | child hd hb hj =>
    obtain ⟨-, i, -, hi⟩ := hb
    exact .inr ⟨_, i, _, _, hd, hi, hj, rfl⟩

lemma Dirent.mono (h : ∀ f b, Dirent c f → DirBlock c f b → DirBlock c' f b) (hf : Dirent c f) :
    Dirent c' f := by
  induction hf with
  | root => exact .root
  | child hd hb hj ih => exact .child ih (h _ _ hd hb) hj

/-! ## Places -/

namespace Consistent

/-- The block of an entry is the super block or a held block. -/
lemma block_entry (h : Consistent c) (hf : Dirent c f) :
    f = FilePtr.root ∨ Usable c f.block ∧ ∃ j < file2blk, f = FilePtr.entry f.block j := by
  obtain rfl | ⟨d, i, b, j, hd, hi, hj, rfl⟩ := hf.cases
  · exact .inl rfl
  · exact .inr ⟨h.usable hd hi, j, hj, rfl⟩

/-- The block of an entry is not an indirect block. -/
lemma block_ne_indirect (h : Consistent c) (hf : Dirent c f) (hg : Dirent c g)
    (hi : wordAt c g.indirect ≠ 0) : f.block ≠ (wordAt c g.indirect).toNat := by
  intro he
  have hold := holds_indirect hi
  obtain rfl | ⟨d, i, b, j, hd, hb, -, rfl⟩ := hf.cases
  · have := (h.usable hg hold).ge
    rw [← he, firstData] at this
    simp only [FilePtr.root] at this
    omega
  · rw [← he] at hold
    exact absurd (h.once hd hg hb hold).2 Slot.noConfusion

/-- **No word is a field of two entries**, or two fields of one. -/
theorem place_inj (h : Consistent c) (hf : Dirent c f) (hg : Dirent c g) {x y : Field}
    (hx : HasField c f x) (hy : HasField c g y) (he : placeOf c f x = placeOf c g y) :
    f = g ∧ x = y := by
  cases x with
  | head k =>
    cases y with
    | head l =>
      simp only [placeOf, WordPtr.mk.injEq] at he
      obtain ⟨hb, hw⟩ := he
      have hk : k < 64 := hx
      have hl : l < 64 := hy
      rcases h.block_entry hf with rfl | ⟨hu, j, hj, hfe⟩ <;>
        rcases h.block_entry hg with rfl | ⟨hu', j', hj', hge⟩
      · exact ⟨rfl, by rw [Nat.add_left_cancel hw]⟩
      · have := hu'.ge
        rw [← hb, firstData] at this
        simp only [FilePtr.root] at this
        omega
      · have := hu.ge
        rw [hb, firstData] at this
        simp only [FilePtr.root] at this
        omega
      · rw [hfe, hge] at hw
        simp only [FilePtr.entry] at hw
        obtain rfl : j = j' := by omega
        obtain rfl : k = l := by omega
        exact ⟨by rw [hfe, hge, hb], rfl⟩
    | far i =>
      simp only [placeOf, WordPtr.mk.injEq] at he
      exact absurd he.1 (h.block_ne_indirect hf hg hy.2.2)
  | far i =>
    cases y with
    | head l =>
      simp only [placeOf, WordPtr.mk.injEq] at he
      exact absurd he.1.symm (h.block_ne_indirect hg hf hx.2.2)
    | far i' =>
      simp only [placeOf, WordPtr.mk.injEq] at he
      have hold := holds_indirect hy.2.2
      rw [← he.1] at hold
      exact ⟨(h.once hf hg (holds_indirect hx.2.2) hold).1, by rw [he.2]⟩

end Consistent

/-! ## Changes that keep a file -/

/-- The contents agree on the fields of the file that say which blocks it has. -/
def Agrees (c c' : Blocks) (f : FilePtr) : Prop :=
  ∀ x : Field, x.Meta → HasField c f x → wordAt c' (placeOf c f x) = wordAt c (placeOf c f x)

lemma Slot.meta_field {p : Slot} (h : HasField c f p.field) : p.field.Meta := by
  cases p with
  | data i =>
    simp only [Slot.field]
    split_ifs with hi
    · have hi : i < 10 := hi
      exact ⟨by omega, by omega⟩
    · trivial
  | indirect => exact ⟨by decide, by decide⟩

namespace Agrees

/-- Images that agree on a file have the same indirect block of it. -/
lemma indirect (h : Agrees c c' f) : wordAt c' f.indirect = wordAt c f.indirect :=
  h (.head 44) ⟨by decide, by decide⟩ (by decide : 44 < 64)

lemma type (h : Agrees c c' f) : wordAt c' f.type = wordAt c f.type :=
  h (.head 33) ⟨by decide, by decide⟩ (by decide : 33 < 64)

lemma size (h : Agrees c c' f) : wordAt c' f.size = wordAt c f.size :=
  h (.head 32) ⟨by decide, by decide⟩ (by decide : 32 < 64)

lemma placeOf_eq (h : Agrees c c' f) (x : Field) : placeOf c' f x = placeOf c f x := by
  cases x with
  | head k => rfl
  | far i => simp only [placeOf, h.indirect]

lemma hasField_iff (h : Agrees c c' f) (x : Field) : HasField c' f x ↔ HasField c f x := by
  cases x with
  | head k => rfl
  | far i => simp only [HasField, h.indirect]

/-- Images that agree on a file have the same blocks of it. -/
lemma holds_iff (h : Agrees c c' f) {p : Slot} : Holds c' f p b ↔ Holds c f p b := by
  unfold Holds
  rw [h.hasField_iff, h.placeOf_eq]
  refine and_congr_right fun hp => ?_
  rw [h p.field (Slot.meta_field hp) hp]

/-- A directory that images agree on has the same blocks. -/
lemma dirBlock_iff (h : Agrees c c' f) : DirBlock c' f b ↔ DirBlock c f b := by
  unfold DirBlock sizeBlocksOf
  simp only [h.type, h.size, h.holds_iff]

end Agrees

namespace Consistent

/-- A word that is not one of these fields can be written. -/
lemma agrees_of_ne {p : WordPtr} {w : Word}
    (hp : ∀ x : Field, x.Meta → HasField c f x → placeOf c f x ≠ p) : Agrees c (putWord c p w) f :=
  fun x hx hf => wordAt_putWord_of_ne (hp x hx hf)

/-- Writing to another field of an entry keeps the file. -/
lemma agrees_of_field (h : Consistent c) (hf : Dirent c f) (hg : Dirent c g) {y : Field}
    (hy : HasField c g y) (hne : f ≠ g ∨ ¬ y.Meta) {w : Word} :
    Agrees c (putWord c (placeOf c g y) w) f := by
  refine agrees_of_ne fun x hx hfx he => ?_
  obtain ⟨rfl, rfl⟩ := h.place_inj hf hg hfx hy he
  exact hne.elim (fun h => h rfl) fun h => h hx

end Consistent

/-! ## Changes -/

/-- The structures that are there afterwards were there before, or hold zeros. -/
lemma Dirent.of_update (hdir : ∀ f b, Dirent c f → DirBlock c' f b → DirBlock c f b ∨ Blank c' b)
    (hf : Dirent c' f) :
    Dirent c f ∨ ∃ b j, j < file2blk ∧ Blank c' b ∧ f = FilePtr.entry b j := by
  induction hf with
  | root => exact .inl .root
  | @child d b j hd hb hj ih =>
    rcases ih with ih | ⟨v, l, hl, hblank, rfl⟩
    · rcases hdir d b ih hb with hb | hblank
      · exact .inl (.child ih hb hj)
      · exact .inr ⟨b, j, hj, hblank, rfl⟩
    · exact absurd hb (hblank.not_dirBlock hl)

/-- **A change keeps the consistency** if every new structure is empty, and what an entry holds
afterwards it held before, or it is new: usable, held by nobody before, and held once. -/
theorem Consistent.update (h : Consistent c) (hn : nblocksOf c' = nblocksOf c)
    (hfree : ∀ b, IsFree c' b → IsFree c b ∨
      firstData c ≤ b ∧ ∀ f p, Dirent c f → ¬ Holds c' f p b)
    (hdir : ∀ f b, Dirent c f → DirBlock c' f b → DirBlock c f b ∨ Blank c' b)
    (New : FilePtr → Slot → ℕ → Prop)
    (hheld : ∀ f p b, Dirent c f → Holds c' f p b → Holds c f p b ∨ New f p b)
    (hnew : ∀ f p b, New f p b → Usable c' b ∧ ∀ g q, Dirent c g → ¬ Holds c g q b)
    (hone : ∀ f p g q b, New f p b → New g q b → f = g ∧ p = q) : Consistent c' := by
  have hlast : firstData c' = firstData c := by rw [firstData, hn, firstData]
  -- a structure that holds something was an entry before
  have hold : ∀ {f p b}, Dirent c' f → Holds c' f p b → Dirent c f ∧ (Holds c f p b ∨ New f p b) := by
    intro f p b hf hp
    rcases Dirent.of_update hdir hf with hf | ⟨v, j, hj, hblank, rfl⟩
    · exact ⟨hf, hheld f p b hf hp⟩
    · exact absurd hp (hblank.not_holds hj)
  refine ⟨fun {f p b} hf hp => ?_, fun {f p g q b} hf hg hp hq => ?_, fun b hb hfb => ?_⟩
  · obtain ⟨hfc, hpc | hpn⟩ := hold hf hp
    · have hu := h.usable hfc hpc
      refine ⟨hlast ▸ hu.ge, hn ▸ hu.lt, fun hfb => ?_⟩
      rcases hfree b hfb with hfb | ⟨-, hno⟩
      · exact hu.used hfb
      · exact hno f p hfc hp
    · exact (hnew f p b hpn).1
  · obtain ⟨hfc, hpc | hpn⟩ := hold hf hp <;> obtain ⟨hgc, hqc | hqn⟩ := hold hg hq
    · exact h.once hfc hgc hpc hqc
    · exact absurd hpc ((hnew g q b hqn).2 f p hfc)
    · exact absurd hqc ((hnew f p b hpn).2 g q hgc)
    · exact hone f p g q b hpn hqn
  · rw [hlast] at hb
    rcases hfree b hfb with hfb | ⟨hge, -⟩
    · exact h.reserved b hb hfb
    · omega

end MosVolca
