import MosVolca.Fs.Ownership

/-!
# Changes of the owners of blocks

What each kind of change that the file server makes to the contents of the blocks does to the
entries and to what they hold: a pointer to a new block, a pointer that is cleared, an indirect
block, a new size or type, a bit of the bitmap, a page of zeros.

## Main results

* `MosVolca.Consistent.giveData`, `MosVolca.Consistent.giveIndirect` — a new block for a file.
* `MosVolca.Consistent.clear` — a pointer that is cleared.
* `MosVolca.Consistent.setSize`, `MosVolca.Consistent.setType` — a change of a directory.
* `MosVolca.Consistent.setFree`, `MosVolca.Consistent.setUsed`, `MosVolca.Consistent.fillZero` — the
  bitmap and new pages.
-/

namespace MosVolca

variable {c c' : Blocks} {f g d : FilePtr} {b i j v : ℕ} {w : Word}

/-! ## The parts that do not change -/

/-- The place is neither in the bitmap nor one of the first two words of the super block. -/
def Outside (c : Blocks) (p : WordPtr) : Prop :=
  p.block = 1 ∧ 2 ≤ p.word ∨ firstData c ≤ p.block

/-- The contents have the same number of blocks and the same bitmap. -/
structure SameMap (c c' : Blocks) : Prop where
  nblocks : nblocksOf c' = nblocksOf c
  bits : ∀ k, 2 + k / 1024 < firstData c → bitsOf c' k = bitsOf c k

/-- The free blocks are read off the bitmap. -/
lemma SameMap.isFree_iff (h : SameMap c c') : IsFree c' b ↔ IsFree c b := by
  unfold IsFree Bitmap.test
  rw [h.nblocks]
  refine and_congr_right fun hb => ?_
  rw [h.bits]
  have hdiv : b / 32 / 1024 = b / 32768 := by rw [Nat.div_div_eq_div_mul]
  have : b / 32768 ≤ nblocksOf c / 32768 := Nat.div_le_div_right hb.le
  rw [hdiv, firstData]
  omega

lemma SameMap.usable (h : SameMap c c') (hu : Usable c b) : Usable c' b where
  ge := by rw [firstData, h.nblocks]; exact hu.ge
  lt := h.nblocks ▸ hu.lt
  used := fun hf => hu.used (h.isFree_iff.mp hf)

/-- A word outside of the super block and the bitmap. -/
lemma sameMap_putWord {p : WordPtr} (hp : Outside c p) : SameMap c (putWord c p w) where
  nblocks := by
    unfold nblocksOf
    rw [show putWord c p w 1 1 = c 1 1 from TwoLevel.write_of_ne ?_]
    rcases hp with ⟨-, hw⟩ | hb
    · exact .inr (by omega)
    · exact .inl (by unfold firstData at hb; omega)
  bits := fun k hk => by
    refine TwoLevel.write_of_ne (.inl ?_)
    rcases hp with ⟨hb, -⟩ | hb <;> omega

lemma placeOf_far : placeOf c f (.far i) = ⟨(wordAt c f.indirect).toNat, i⟩ := rfl

lemma hasField_far :
    HasField c f (.far i) ↔ ndirect ≤ i ∧ i < nindirect ∧ wordAt c f.indirect ≠ 0 := Iff.rfl

/-- The words of an entry are not in a block for data that nobody holds. -/
lemma Dirent.ne_block (hf : Dirent c f) {x : Field} (hx : HasField c f x)
    (hv : firstData c ≤ v) (hno : ∀ f p, Dirent c f → ¬ Holds c f p v) :
    (placeOf c f x).block ≠ v := by
  rintro rfl
  cases x with
  | head k =>
    obtain rfl | ⟨d, i, b, j, hd, hi, hj, rfl⟩ := hf.cases
    · simp only [placeOf, FilePtr.root, firstData] at hv
      omega
    · exact hno d _ hd hi
  | far i => exact hno f _ hf (holds_indirect hx.2.2)

lemma sameMap_fill (hv : v = 0 ∨ firstData c ≤ v) : SameMap c (TwoLevel.fill c v 0) := by
  unfold firstData at hv
  exact ⟨congrArg BitVec.toNat (TwoLevel.fill_of_ne (by omega)),
    fun k hk => TwoLevel.fill_of_ne (by unfold firstData at hk; omega)⟩

lemma wordAt_fill_ne_zero {p : WordPtr} (h : wordAt (TwoLevel.fill c v 0) p ≠ 0) :
    p.block ≠ v ∧ wordAt (TwoLevel.fill c v 0) p = wordAt c p := by
  have hne : p.block ≠ v := by
    intro he
    unfold wordAt at h
    rw [he, TwoLevel.fill_same] at h
    exact h rfl
  exact ⟨hne, TwoLevel.fill_of_ne hne⟩

/-- What is held after a block is filled with zeros was held before. -/
lemma holds_of_fill {p : Slot} (h : Holds (TwoLevel.fill c v 0) f p b) :
    Holds c f p b ∧ f.block ≠ v := by
  obtain ⟨hfield, hne, hb⟩ := h
  unfold Holds
  cases hx : p.field with
  | head k =>
    rw [hx] at hfield hne hb
    obtain ⟨hblock, hw⟩ := wordAt_fill_ne_zero hne
    change wordAt _ (placeOf c f (.head k)) ≠ 0 at hne
    exact ⟨⟨hfield, fun h0 => hne (hw.trans h0), (congrArg BitVec.toNat hw).symm.trans hb⟩, hblock⟩
  | far i =>
    rw [hx] at hfield hne hb
    obtain ⟨h10, hi, hind⟩ := hasField_far.mp hfield
    obtain ⟨hblock, hw⟩ := wordAt_fill_ne_zero hind
    rw [placeOf_far, hw] at hne hb
    obtain ⟨-, hw'⟩ := wordAt_fill_ne_zero hne
    refine ⟨⟨hasField_far.mpr ⟨h10, hi, hw ▸ hind⟩, ?_⟩, hblock⟩
    rw [placeOf_far]
    exact ⟨hw' ▸ hne, hw' ▸ hb⟩

/-- A directory has no new blocks after a block is filled with zeros. -/
lemma dirBlock_of_fill (h : DirBlock (TwoLevel.fill c v 0) f b) : DirBlock c f b := by
  obtain ⟨ht, i, hi, hold⟩ := h
  obtain ⟨hold, hne⟩ := holds_of_fill hold
  have hword : ∀ k, wordAt (TwoLevel.fill c v 0) ⟨f.block, k⟩ = wordAt c ⟨f.block, k⟩ :=
    fun k => TwoLevel.fill_of_ne hne
  refine ⟨(hword _).symm.trans ht, i, ?_, hold⟩
  rwa [sizeBlocksOf, show wordAt (TwoLevel.fill c v 0) f.size = wordAt c f.size from hword _] at hi

namespace Consistent

/-- The words of an entry lie outside the map. -/
lemma outside_placeOf (h : Consistent c) (hf : Dirent c f) {x : Field} (hx : HasField c f x) :
    Outside c (placeOf c f x) := by
  cases x with
  | head k =>
    rcases h.block_entry hf with rfl | ⟨hu, -⟩
    · exact .inl ⟨rfl, by simp only [placeOf, FilePtr.root]; omega⟩
    · exact .inr hu.ge
  | far i => exact .inr (h.usable hf (holds_indirect hx.2.2)).ge

/-- Contents that agree on all entries have the same entries. -/
lemma entry_iff (hag : ∀ f, Dirent c f → Agrees c c' f) : Dirent c' f ↔ Dirent c f := by
  refine ⟨fun h => ?_, fun h => h.mono fun f b hf hb => (hag f hf).dirBlock_iff.mpr hb⟩
  induction h with
  | root => exact .root
  | child _ hb hj ih => exact .child ih ((hag _ ih).dirBlock_iff.mp hb) hj

/-- Contents that agree on all entries, with a bitmap where no more is free, are consistent. -/
theorem congr (h : Consistent c) (hn : nblocksOf c' = nblocksOf c)
    (hfree : ∀ b, IsFree c' b → IsFree c b) (hag : ∀ f, Dirent c f → Agrees c c' f) :
    Consistent c' :=
  h.update hn (fun b hb => .inl (hfree b hb)) (fun f _ hf hb => .inl ((hag f hf).dirBlock_iff.mp hb))
    (fun _ _ _ => False) (fun f _ _ hf hp => .inl ((hag f hf).holds_iff.mp hp))
    (fun _ _ _ h => h.elim) fun _ _ _ _ _ h _ => h.elim

/-- A word of an entry that is not one of its meta fields can be written. -/
theorem putOther (h : Consistent c) (hg : Dirent c g) {x : Field} (hx : HasField c g x)
    (hm : ¬ x.Meta) : Consistent (putWord c (placeOf c g x) w) :=
  have hs := sameMap_putWord (h.outside_placeOf hg hx)
  h.congr hs.nblocks (fun _ => hs.isFree_iff.mp) fun _ hf => h.agrees_of_field hf hg hx (.inr hm)

/-! ## One block pointer -/

/-- A field of an entry keeps its place if another field than `f_indirect` is written. -/
lemma placeOf_putWord (h : Consistent c) (hf : Dirent c f) (hg : Dirent c g) {x y : Field}
    (hy : HasField c g y) (hi : y ≠ .head 44) :
    placeOf (putWord c (placeOf c g y) w) f x = placeOf c f x ∧
      (HasField (putWord c (placeOf c g y) w) f x ↔ HasField c f x) := by
  have hind : wordAt (putWord c (placeOf c g y) w) f.indirect = wordAt c f.indirect := by
    refine wordAt_putWord_of_ne fun he => ?_
    exact hi (h.place_inj hf hg (x := .head 44) (by decide : 44 < 64) hy he).2.symm
  cases x with
  | head k => exact ⟨rfl, Iff.rfl⟩
  | far i => exact ⟨by rw [placeOf_far, placeOf_far, hind], by rw [hasField_far, hasField_far, hind]⟩

lemma field_data_ne (i : ℕ) : (Slot.data i).field ≠ .head 44 := by
  simp only [Slot.field]
  split_ifs with hi
  · have hi : i < 10 := hi
    simp only [ne_eq, Field.head.injEq]
    omega
  · simp

/-- The pointers of a file lie at different places. -/
lemma field_inj {p q : Slot} (h : p.field = q.field) : p = q := by
  cases p with
  | data i =>
    cases q with
    | data j =>
      simp only [Slot.field] at h
      split_ifs at h with hi hj hj
      · simp only [Field.head.injEq] at h
        rw [show i = j by omega]
      · simp only [Field.far.injEq] at h
        rw [h]
    | indirect => exact absurd h (field_data_ne i)
  | indirect =>
    cases q with
    | data j => exact absurd h.symm (field_data_ne j)
    | indirect => rfl

/-- What is held after a data pointer is written: that pointer has the new value, the others are as
before. -/
lemma holds_putData (h : Consistent c) (hf : Dirent c f) (hg : Dirent c g)
    (hi : HasField c g (Slot.data i).field) {p : Slot} :
    Holds (putWord c (placeOf c g (Slot.data i).field) w) f p b ↔
      if f = g ∧ p = .data i then w ≠ 0 ∧ w.toNat = b else Holds c f p b := by
  obtain ⟨hplace, hfield⟩ := h.placeOf_putWord (w := w) (x := p.field) hf hg hi (field_data_ne i)
  unfold Holds
  rw [hplace, hfield]
  split_ifs with hc
  · obtain ⟨rfl, rfl⟩ := hc
    rw [wordAt_putWord_self]
    exact ⟨fun h => h.2, fun h => ⟨hi, h⟩⟩
  · refine and_congr_right fun hp => ?_
    rw [wordAt_putWord_of_ne]
    intro he
    obtain ⟨rfl, hpi⟩ := h.place_inj hf hg hp hi he
    exact hc ⟨rfl, field_inj hpi⟩

/-- Size and type stay when a data pointer is written. -/
lemma head_putData (h : Consistent c) (hf : Dirent c f) (hg : Dirent c g)
    (hi : HasField c g (Slot.data i).field) :
    wordAt (putWord c (placeOf c g (Slot.data i).field) w) f.type = wordAt c f.type ∧
      wordAt (putWord c (placeOf c g (Slot.data i).field) w) f.size = wordAt c f.size := by
  constructor
  · refine wordAt_putWord_of_ne fun he => ?_
    have := (h.place_inj hf hg (x := .head 33) (by decide : 33 < 64) hi he).2
    simp only [Slot.field] at this
    split_ifs at this
    simp only [Field.head.injEq] at this
    omega
  · refine wordAt_putWord_of_ne fun he => ?_
    have := (h.place_inj hf hg (x := .head 32) (by decide : 32 < 64) hi he).2
    simp only [Slot.field] at this
    split_ifs at this
    simp only [Field.head.injEq] at this
    omega

/-- A new data pointer makes a directory block of its own block only. -/
lemma dirBlock_putData (h : Consistent c) (hf : Dirent c f) (hg : Dirent c g)
    (hi : HasField c g (Slot.data i).field)
    (hb : DirBlock (putWord c (placeOf c g (Slot.data i).field) w) f b) :
    DirBlock c f b ∨ f = g ∧ w.toNat = b ∧ wordAt c g.type = ftypeDir ∧ i < sizeBlocksOf c g := by
  obtain ⟨htype, i', hi', hold⟩ := hb
  obtain ⟨ht, hs⟩ := h.head_putData (w := w) hf hg hi
  rw [ht] at htype
  rw [sizeBlocksOf, hs] at hi'
  rw [h.holds_putData hf hg hi] at hold
  split_ifs at hold with hc
  · obtain ⟨rfl, hc⟩ := hc
    rw [Slot.data.injEq] at hc
    exact .inr ⟨rfl, hold.2, htype, hc ▸ hi'⟩
  · exact .inl ⟨htype, i', hi', hold⟩

/-- **A new block for a file.** If it becomes a block of a directory, it has to be empty. -/
theorem giveData (h : Consistent c) (hg : Dirent c g) (hi : HasField c g (Slot.data i).field)
    (hv : Usable c w.toNat) (hno : ∀ f p, Dirent c f → ¬ Holds c f p w.toNat)
    (hblank : wordAt c g.type = ftypeDir → i < sizeBlocksOf c g → Blank c w.toNat) :
    Consistent (putWord c (placeOf c g (Slot.data i).field) w) := by
  have hs := sameMap_putWord (w := w) (h.outside_placeOf hg hi)
  refine h.update hs.nblocks (fun b hb => .inl (hs.isFree_iff.mp hb)) (fun f b hf hb => ?_)
    (fun f p b => f = g ∧ p = .data i ∧ w.toNat = b) (fun f p b hf hp => ?_) ?_ ?_
  · rcases h.dirBlock_putData hf hg hi hb with hb | ⟨-, rfl, ht, hsz⟩
    · exact .inl hb
    · refine .inr fun k hk => ?_
      rw [show putWord c (placeOf c g (Slot.data i).field) w w.toNat k = c w.toNat k from
        TwoLevel.write_of_ne_page (hg.ne_block hi hv.ge hno).symm]
      exact hblank ht hsz k hk
  · rw [h.holds_putData hf hg hi] at hp
    split_ifs at hp with hc
    · exact .inr ⟨hc.1, hc.2, hp.2⟩
    · exact .inl hp
  · rintro f p b ⟨-, -, rfl⟩
    exact ⟨hs.usable hv, hno⟩
  · rintro f p g' q b ⟨rfl, rfl, -⟩ ⟨rfl, rfl, -⟩
    exact ⟨rfl, rfl⟩

/-- A data pointer that is cleared. -/
theorem clearData (h : Consistent c) (hg : Dirent c g) (hi : HasField c g (Slot.data i).field) :
    Consistent (putWord c (placeOf c g (Slot.data i).field) 0) := by
  have hs := sameMap_putWord (w := 0) (h.outside_placeOf hg hi)
  refine h.update hs.nblocks (fun b hb => .inl (hs.isFree_iff.mp hb)) (fun f b hf hb => ?_)
    (fun _ _ _ => False) (fun f p b hf hp => ?_) (fun _ _ _ h => h.elim) fun _ _ _ _ _ h _ => h.elim
  · obtain ⟨ht, i', hi', hold⟩ := hb
    obtain ⟨htype, hsize⟩ := h.head_putData (w := 0) hf hg hi
    rw [htype] at ht
    rw [sizeBlocksOf, hsize] at hi'
    rw [h.holds_putData hf hg hi] at hold
    split_ifs at hold with hc
    · exact absurd rfl hold.1
    · exact .inl ⟨ht, i', hi', hold⟩
  · rw [h.holds_putData hf hg hi] at hp
    split_ifs at hp with hc
    · exact absurd rfl hp.1
    · exact .inl hp

/-! ## The indirect block -/

lemma hasField_indirect : HasField c g (.head 44) := (by decide : 44 < 64)

/-- What is held after `f_indirect` is cleared or set to an empty block: nothing else but that
block. -/
lemma holds_putIndirect (h : Consistent c) (hf : Dirent c f) (hg : Dirent c g)
    (hblock : w.toNat ≠ g.block) (hblank : w ≠ 0 → Blank c w.toNat) {p : Slot}
    (hp : Holds (putWord c g.indirect w) f p b) :
    Holds c f p b ∨ f = g ∧ p = .indirect ∧ w ≠ 0 ∧ w.toNat = b := by
  have hself : wordAt (putWord c g.indirect w) g.indirect = w := wordAt_putWord_self c g.indirect w
  by_cases hfg : f = g
  · subst hfg
    obtain ⟨hfield, hne, hb⟩ := hp
    cases hx : p.field with
    | head k =>
      rw [hx] at hfield hne hb
      by_cases hk : k = 44
      · subst hk
        obtain rfl : p = .indirect := field_inj (q := .indirect) hx
        rw [show placeOf (putWord c f.indirect w) f (.head 44) = f.indirect from rfl, hself] at hne hb
        exact .inr ⟨rfl, rfl, hne, hb⟩
      · refine .inl ?_
        rw [show placeOf (putWord c f.indirect w) f (.head k) = placeOf c f (.head k) from rfl,
          wordAt_putWord_of_ne fun he => hk (by simpa [placeOf, FilePtr.indirect] using he)] at hne hb
        unfold Holds
        rw [hx]
        exact ⟨hfield, hne, hb⟩
    | far i =>
      rw [hx] at hfield hne
      obtain ⟨-, hi, hw⟩ := hasField_far.mp hfield
      rw [hself] at hw
      rw [placeOf_far, hself, wordAt_putWord_of_ne fun he => hblock (congrArg WordPtr.block he)] at hne
      exact absurd (hblank hw i hi) hne
  · exact .inl ((h.agrees_of_field hf hg hasField_indirect (.inl hfg)).holds_iff.mp hp)

/-- The other words of a structure stay when `f_indirect` is written. -/
lemma head_putIndirect (h : Consistent c) (hf : Dirent c f) (hg : Dirent c g) {k : ℕ} (hk : k < 64)
    (hne : k ≠ 44) :
    wordAt (putWord c g.indirect w) ⟨f.block, f.word + k⟩ = wordAt c ⟨f.block, f.word + k⟩ := by
  refine wordAt_putWord_of_ne fun he => hne ?_
  exact Field.head.inj (h.place_inj hf hg (x := .head k) hk hasField_indirect he).2

/-- The blocks of directories after `f_indirect` is cleared or set to an empty block. -/
lemma dirBlock_putIndirect (h : Consistent c) (hf : Dirent c f) (hg : Dirent c g)
    (hblock : w.toNat ≠ g.block) (hblank : w ≠ 0 → Blank c w.toNat)
    (hb : DirBlock (putWord c g.indirect w) f b) : DirBlock c f b := by
  obtain ⟨ht, i, hi, hold⟩ := hb
  refine ⟨(h.head_putIndirect hf hg (by decide) (by decide)).symm.trans ht, i, ?_, ?_⟩
  · rwa [sizeBlocksOf, show wordAt (putWord c g.indirect w) f.size = wordAt c f.size from
      h.head_putIndirect hf hg (by decide) (by decide)] at hi
  · rcases h.holds_putIndirect hf hg hblock hblank hold with hold | ⟨-, hp, -⟩
    · exact hold
    · exact absurd hp Slot.noConfusion

/-- The data pointers stay when `f_indirect` is written where there was no indirect block. -/
lemma holds_data_putIndirect (h : Consistent c) (hf : Dirent c f) (hg : Dirent c g)
    (h0 : wordAt c g.indirect = 0) (hold : Holds c f (.data i) b) :
    Holds (putWord c g.indirect w) f (.data i) b := by
  by_cases hfg : f = g
  · subst hfg
    obtain ⟨hfield, hne, hb⟩ := hold
    unfold Holds
    simp only [Slot.field] at hfield hne hb ⊢
    split_ifs at hfield hne hb ⊢ with hi
    · have hi : i < 10 := hi
      have hw : wordAt (putWord c f.indirect w) (placeOf c f (.head (34 + i))) =
          wordAt c (placeOf c f (.head (34 + i))) :=
        h.head_putIndirect hf hf (by omega) (by omega)
      change _ ∧ wordAt _ (placeOf c f (.head (34 + i))) ≠ 0 ∧
        (wordAt _ (placeOf c f (.head (34 + i)))).toNat = b
      rw [hw]
      exact ⟨hfield, hne, hb⟩
    · exact absurd h0 (hasField_far.mp hfield).2.2
  · exact (h.agrees_of_field hf hg hasField_indirect (.inl hfg)).holds_iff.mpr hold

/-- **A new indirect block for a file**, if it is empty. -/
theorem giveIndirect (h : Consistent c) (hg : Dirent c g) (hv : Usable c w.toNat)
    (hno : ∀ f p, Dirent c f → ¬ Holds c f p w.toNat) (hblank : Blank c w.toNat) :
    Consistent (putWord c g.indirect w) := by
  have hs := sameMap_putWord (w := w) (h.outside_placeOf hg (x := .head 44) hasField_indirect)
  have hblock : w.toNat ≠ g.block := (hg.ne_block (x := .head 44) hasField_indirect hv.ge hno).symm
  refine h.update hs.nblocks (fun b hb => .inl (hs.isFree_iff.mp hb))
    (fun f b hf hb => .inl (h.dirBlock_putIndirect hf hg hblock (fun _ => hblank) hb))
    (fun f p b => f = g ∧ p = .indirect ∧ w ≠ 0 ∧ w.toNat = b)
    (fun f p b hf hp => h.holds_putIndirect hf hg hblock (fun _ => hblank) hp) ?_ ?_
  · rintro f p b ⟨-, -, -, rfl⟩
    exact ⟨hs.usable hv, hno⟩
  · rintro f p g' q b ⟨rfl, rfl, -⟩ ⟨rfl, rfl, -⟩
    exact ⟨rfl, rfl⟩

lemma zero_ne_block (h : Consistent c) (hg : Dirent c g) : 0 ≠ g.block := by
  rcases h.block_entry hg with rfl | ⟨hu, -⟩
  · decide
  · have := hu.ge
    unfold firstData at this
    omega

/-- `f_indirect` is cleared. -/
theorem clearIndirect (h : Consistent c) (hg : Dirent c g) : Consistent (putWord c g.indirect 0) := by
  have hs := sameMap_putWord (w := 0) (h.outside_placeOf hg (x := .head 44) hasField_indirect)
  have hblock : (0 : Word).toNat ≠ g.block := h.zero_ne_block hg
  have hblank : (0 : Word) ≠ 0 → Blank c (0 : Word).toNat := fun hne => absurd rfl hne
  refine h.update hs.nblocks (fun b hb => .inl (hs.isFree_iff.mp hb))
    (fun f b hf hb => .inl (h.dirBlock_putIndirect hf hg hblock hblank hb))
    (fun _ _ _ => False) (fun f p b hf hp => ?_) (fun _ _ _ h => h.elim) fun _ _ _ _ _ h _ => h.elim
  rcases h.holds_putIndirect hf hg hblock hblank hp with hp | ⟨-, -, hne, -⟩
  · exact .inl hp
  · exact absurd rfl hne

/-! ## Size and type -/

/-- What a file holds does not depend on its size and its type. -/
lemma holds_putHead (h : Consistent c) (hf : Dirent c f) (hg : Dirent c g) {k : ℕ} (hk : k < 34)
    {p : Slot} : Holds (putWord c (placeOf c g (.head k)) w) f p b ↔ Holds c f p b := by
  have hfield : HasField c g (.head k) := (by omega : k < 64)
  obtain ⟨hplace, hiff⟩ := h.placeOf_putWord (w := w) (x := p.field) hf hg hfield (by
    simp only [ne_eq, Field.head.injEq]
    omega)
  unfold Holds
  rw [hplace, hiff]
  refine and_congr_right fun hp => ?_
  rw [wordAt_putWord_of_ne]
  intro he
  have hpk := (h.place_inj hf hg hp hfield he).2
  cases p with
  | data i =>
    simp only [Slot.field] at hpk
    split_ifs at hpk
    simp only [Field.head.injEq] at hpk
    omega
  | indirect =>
    simp only [Slot.field, Field.head.injEq] at hpk
    omega

/-- A block of zeros stays one if a word of an entry that holds it is written. -/
lemma blank_putWord (h : Consistent c) (hg : Dirent c g) {p : Slot} (hold : Holds c g p b)
    (hb : Blank c b) {k : ℕ} : Blank (putWord c (placeOf c g (.head k)) w) b := by
  intro i hi
  rw [show putWord c (placeOf c g (.head k)) w b i = c b i from TwoLevel.write_of_ne_page ?_]
  · exact hb i hi
  · rintro rfl
    rcases h.block_entry hg with rfl | ⟨-, j, hj, hge⟩
    · have : firstData c ≤ 1 := (h.usable hg hold).ge
      unfold firstData at this
      omega
    · exact (hb.not_holds hj) (hge ▸ hold)

/-- A size or a type is written: the blocks that become blocks of a directory have to be empty. -/
theorem setHead (h : Consistent c) (hg : Dirent c g) {k : ℕ} (hk : k < 34)
    (hgrow : ∀ b, DirBlock (putWord c (placeOf c g (.head k)) w) g b →
      DirBlock c g b ∨ Blank c b) : Consistent (putWord c (placeOf c g (.head k)) w) := by
  have hfield : HasField c g (.head k) := (by omega : k < 64)
  have hs := sameMap_putWord (w := w) (h.outside_placeOf hg hfield)
  refine h.update hs.nblocks (fun b hb => .inl (hs.isFree_iff.mp hb)) (fun f b hf hb => ?_)
    (fun _ _ _ => False) (fun f p b hf hp => .inl ((h.holds_putHead hf hg hk).mp hp))
    (fun _ _ _ h => h.elim) fun _ _ _ _ _ h _ => h.elim
  by_cases hfg : f = g
  · subst hfg
    rcases hgrow b hb with hd | hblank
    · exact .inl hd
    · obtain ⟨-, i, -, hold⟩ := hb
      exact .inr (h.blank_putWord hf ((h.holds_putHead hf hg hk).mp hold) hblank)
  · exact .inl ((h.agrees_of_field hf hg hfield (.inl hfg)).dirBlock_iff.mp hb)

/-! ## The bitmap and new pages -/

/-- Contents that agree outside the bitmap agree on every entry. -/
lemma agrees_of_map (h : Consistent c) (hf : Dirent c f)
    (hag : ∀ p, Outside c p → wordAt c' p = wordAt c p) : Agrees c c' f :=
  fun _ _ hx => hag _ (h.outside_placeOf hf hx)

/-- A block that nobody holds is set free. -/
theorem setFree (h : Consistent c) (hn : nblocksOf c' = nblocksOf c)
    (hag : ∀ p, Outside c p → wordAt c' p = wordAt c p) (hv : firstData c ≤ v)
    (hfree : ∀ b, IsFree c' b → IsFree c b ∨ b = v) (hno : ∀ f p, Dirent c f → ¬ Holds c f p v) :
    Consistent c' := by
  have hag' : ∀ f, Dirent c f → Agrees c c' f := fun f hf => h.agrees_of_map hf hag
  refine h.update hn (fun b hb => ?_) (fun f b hf hb => .inl ((hag' f hf).dirBlock_iff.mp hb))
    (fun _ _ _ => False) (fun f p b hf hp => .inl ((hag' f hf).holds_iff.mp hp))
    (fun _ _ _ h => h.elim) fun _ _ _ _ _ h _ => h.elim
  rcases hfree b hb with hb | rfl
  · exact .inl hb
  · exact .inr ⟨hv, fun f p hf hp => hno f p hf ((hag' f hf).holds_iff.mp hp)⟩

/-- A block is taken from the free ones. -/
theorem setUsed (h : Consistent c) (hn : nblocksOf c' = nblocksOf c)
    (hag : ∀ p, Outside c p → wordAt c' p = wordAt c p) (hfree : ∀ b, IsFree c' b → IsFree c b) :
    Consistent c' :=
  h.congr hn hfree fun _ hf => h.agrees_of_map hf hag

/-- **A page of zeros** in place of a block that is not in the map: what it described is gone. -/
theorem fillZero (h : Consistent c) (hv : v = 0 ∨ firstData c ≤ v) :
    Consistent (TwoLevel.fill c v 0) := by
  have hs := sameMap_fill hv
  refine h.update hs.nblocks (fun b hb => .inl (hs.isFree_iff.mp hb)) (fun f b hf hb => .inl ?_)
    (fun _ _ _ => False) (fun f p b hf hp => .inl (holds_of_fill hp).1)
    (fun _ _ _ h => h.elim) fun _ _ _ _ _ h _ => h.elim
  exact dirBlock_of_fill hb

end Consistent

/-! ## Flat images -/

/-- A file without an indirect block holds the blocks of `f_direct`. -/
lemma holds_direct {p : Slot} (h0 : wordAt c f.indirect = 0)
    (h : Holds c f p b) : ∃ i < 10, p = .data i ∧ wordAt c (f.direct i) ≠ 0 ∧
      (wordAt c (f.direct i)).toNat = b := by
  obtain ⟨hfield, hne, hb⟩ := h
  cases p with
  | data i =>
    simp only [Slot.field] at hfield hne hb
    split_ifs at hfield hne hb with hi
    · exact ⟨i, hi, rfl, hne, hb⟩
    · exact absurd h0 (hasField_far.mp hfield).2.2
  | indirect => exact absurd h0 hne

/-- An image with block 3 for the root, and in it `n` files of one block each, in the blocks from 4
on. -/
structure FlatImage (c : Blocks) (n : ℕ) : Prop where
  root : wordAt c FilePtr.root.indirect = 0 ∧
    ∀ i < 10, wordAt c (FilePtr.root.direct i) = if i = 0 then 3 else 0
  plain : ∀ j < 16, wordAt c (FilePtr.entry 3 j).type ≠ ftypeDir ∧
    wordAt c (FilePtr.entry 3 j).indirect = 0
  entry : ∀ j < 16, ∀ i < 10, wordAt c ((FilePtr.entry 3 j).direct i) =
    if i = 0 ∧ j < n then BitVec.ofNat 32 (j + 4) else 0
  first : firstData c = 3
  blocks : n + 4 ≤ nblocksOf c
  used : ∀ k < n + 4, Bitmap.test (bitsOf c) k = false

namespace FlatImage

variable {n : ℕ}

lemma dirent (h : FlatImage c n) (hf : Dirent c f) :
    f = FilePtr.root ∨ ∃ j < 16, f = FilePtr.entry 3 j := by
  induction hf with
  | root => exact .inl rfl
  | @child d b j hd hb hj ih =>
    obtain ⟨ht, i, -, hold⟩ := hb
    rcases ih with rfl | ⟨l, hl, rfl⟩
    · obtain ⟨i, hi, -, hne, hbv⟩ := holds_direct h.root.1 hold
      rw [h.root.2 i hi] at hne hbv
      split_ifs at hne hbv
      · exact .inr ⟨j, hj, by rw [← hbv]; rfl⟩
      · exact absurd rfl hne
    · exact absurd ht (h.plain l hl).1

lemma holds {p : Slot} (h : FlatImage c n) (hf : Dirent c f) (hp : Holds c f p b) :
    p = .data 0 ∧ (f = FilePtr.root ∧ b = 3 ∨ ∃ j < n, f = FilePtr.entry 3 j ∧ b = j + 4) := by
  rcases h.dirent hf with rfl | ⟨j, hj, rfl⟩
  · obtain ⟨i, hi, rfl, hne, hb⟩ := holds_direct h.root.1 hp
    rw [h.root.2 i hi] at hne hb
    split_ifs at hne hb with h0
    · exact ⟨by rw [h0], .inl ⟨rfl, hb.symm⟩⟩
    · exact absurd rfl hne
  · obtain ⟨i, hi, rfl, hne, hb⟩ := holds_direct (h.plain j hj).2 hp
    rw [h.entry j hj i hi] at hne hb
    split_ifs at hne hb with h0
    · refine ⟨by rw [h0.1], .inr ⟨j, h0.2, rfl, ?_⟩⟩
      rw [← hb, BitVec.toNat_ofNat, Nat.mod_eq_of_lt (by omega)]
    · exact absurd rfl hne

/-- A flat image is consistent. -/
lemma consistent (h : FlatImage c n) : Consistent c where
  usable := fun hf hp => by
    have hblocks := h.blocks
    obtain ⟨-, ⟨-, rfl⟩ | ⟨j, hj, -, rfl⟩⟩ := h.holds hf hp
    · refine ⟨h.first.le, by omega, fun hfree => ?_⟩
      exact absurd ((h.used 3 (by omega)).symm.trans hfree.2) Bool.false_ne_true
    · refine ⟨by rw [h.first]; omega, by omega, fun hfree => ?_⟩
      exact absurd ((h.used (j + 4) (by omega)).symm.trans hfree.2) Bool.false_ne_true
  once := fun hf hg hp hq => by
    obtain ⟨h1, hfb⟩ := h.holds hf hp
    obtain ⟨h2, hgb⟩ := h.holds hg hq
    refine ⟨?_, h1.trans h2.symm⟩
    rcases hfb with ⟨rfl, hb⟩ | ⟨j, -, rfl, hb⟩ <;> rcases hgb with ⟨rfl, hb'⟩ | ⟨l, -, rfl, hb'⟩
    · rfl
    · omega
    · omega
    · rw [show j = l by omega]
  reserved := fun k hk hfree => by
    rw [h.first] at hk
    exact absurd ((h.used k (by omega)).symm.trans hfree.2) Bool.false_ne_true

end FlatImage

end MosVolca
