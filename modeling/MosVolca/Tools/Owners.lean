import MosVolca.Library.Custody
import MosVolca.Tools.BlockTypes

/-!
# Who holds the blocks of the image

The formatter hands out the blocks in their order and stores each number in one place: in a structure,
or in the indirect block of one. Between two entries every block that was handed out is held by one
pointer of one file, and the pointers of the files hold nothing else. While a file is written there may
be a block that has been handed out and is held by nobody.

## Main definitions

* `MosVolca.HeldBy`, `MosVolca.Owned` — the files with their block pointers as the holders of blocks.
* `MosVolca.Tight`, `MosVolca.TightDirs` — a directory has no pointers beyond its size.

## Main results

* `MosVolca.saveBlockLink_owned` — one block more of a file.
* `MosVolca.createFile_owned` — one structure more of a directory.
-/

namespace MosVolca

open Bounded DiskImage

variable {n : ℕ} {s s' s1 : DiskImage} {C : ℕ → ℕ → Prop} {c c' : Blocks} {f g : FilePtr}
  {cnt : FilePtr → ℕ} {E E' : Set ℕ} {p q : Slot} {b bno i j k w : ℕ} {x : Word}
  {name data : List Char8}

/-- The pointer of a file of the image, and the block that it holds. -/
def HeldBy (s : DiskImage) (x : FilePtr × Slot) (b : ℕ) : Prop :=
  InImage s x.1 ∧ Holds s.disk x.1 x.2 b

/-- **The blocks for data are held once**, but for those in `E`, which are handed out and held by
nobody. What `f_indirect` points to is an indirect block, a file that is no directory has blocks with
bytes, and a file holds blocks behind its own one. -/
structure Owned (n : ℕ) (s : DiskImage) (E : Set ℕ) : Prop where
  custody : Custody (HeldBy s) (2 + nbitblock n) s.nextbno E
  index : ∀ f, InImage s f → wordAt s.disk f.indirect ≠ 0 → IsIndex s (wordAt s.disk f.indirect).toNat
  plain : ∀ f i b, HeldBy s (f, .data i) b → wordAt s.disk f.type ≠ ftypeDir → s.type b = .data
  behind : ∀ x b, HeldBy s x b → x.1.block < b

/-- The structure has no pointers beyond the size, if it is a directory. -/
def Tight (c : Blocks) (f : FilePtr) : Prop :=
  wordAt c f.type = ftypeDir → ∀ i b, Holds c f (.data i) b → i < sizeBlocksOf c f

/-- The directories of the image have no pointers beyond their sizes. -/
def TightDirs (s : DiskImage) : Prop := ∀ f, InImage s f → Tight s.disk f

lemma Tight.congr (h : Tight c f) (ha : Agrees c c' f) : Tight c' f := by
  intro hd i b hb
  rw [ha.type] at hd
  have hlt := h hd i b (ha.holds_iff.mp hb)
  rwa [sizeBlocksOf, ha.size]

/-! ## The words of one pointer -/

section Indirect

variable (hind : wordAt c' f.indirect = wordAt c f.indirect)

include hind in
lemma placeOf_congr (x : Field) : placeOf c' f x = placeOf c f x := by
  cases x with
  | head k => rfl
  | far i => simp only [placeOf, hind]

include hind in
lemma hasField_congr (x : Field) : HasField c' f x ↔ HasField c f x := by
  cases x with
  | head k => rfl
  | far i => simp only [HasField, hind]

include hind in
/-- A pointer is the same if its word is, and the pointer to the indirect block. -/
lemma holds_congr
    (hword : HasField c f p.field → wordAt c' (placeOf c f p.field) = wordAt c (placeOf c f p.field)) :
    Holds c' f p b ↔ Holds c f p b := by
  unfold Holds
  rw [placeOf_congr hind, hasField_congr hind]
  refine and_congr_right fun hp => ?_
  rw [hword hp]

end Indirect

/-- A pointer in the structure holds what its word says. -/
lemma holds_head (hp : p.field = .head k) (hk : k < 64) :
    Holds c f p b ↔ c f.block (f.word + k) ≠ 0 ∧ (c f.block (f.word + k)).toNat = b := by
  unfold Holds
  rw [hp]
  exact and_iff_right hk

/-- A pointer in the indirect block holds what its word says. -/
lemma holds_far (hi : 10 ≤ i) (hi' : i < 1024) (h0 : wordAt c f.indirect ≠ 0) :
    Holds c f (.data i) b ↔ c (wordAt c f.indirect).toNat i ≠ 0 ∧
      (c (wordAt c f.indirect).toNat i).toNat = b := by
  have hf : (Slot.data i).field = .far i := if_neg (not_lt.mpr hi)
  unfold Holds
  rw [hf]
  exact and_iff_right ⟨hi, hi', h0⟩

lemma Slot.field_of_lt (hi : i < 10) : (Slot.data i).field = .head (34 + i) := if_pos hi

lemma Slot.field_of_le (hi : 10 ≤ i) : (Slot.data i).field = .far i := if_neg (not_lt.mpr hi)

/-- The pointers in the structure are words 34 to 44. -/
lemma Slot.head_bounds (hp : p.field = .head k) : 34 ≤ k ∧ k ≤ 44 := by
  cases p with
  | data i =>
    rcases Nat.lt_or_ge i 10 with hi | hi
    · rw [Slot.field_of_lt hi, Field.head.injEq] at hp
      omega
    · rw [Slot.field_of_le hi] at hp
      cases hp
  | indirect =>
    obtain rfl := Field.head.inj hp
    simp

/-- The pointers of a file are in different places. -/
lemma Slot.field_inj (h : p.field = q.field) : p = q := by
  have hind : ∀ i, (Slot.data i).field ≠ .head 44 := by
    intro i he
    rcases Nat.lt_or_ge i 10 with hi | hi
    · rw [Slot.field_of_lt hi, Field.head.injEq] at he
      omega
    · rw [Slot.field_of_le hi] at he
      cases he
  cases p with
  | data i =>
    cases q with
    | data j =>
      rcases Nat.lt_or_ge i 10 with hi | hi <;> rcases Nat.lt_or_ge j 10 with hj | hj
      · rw [Slot.field_of_lt hi, Slot.field_of_lt hj, Field.head.injEq] at h
        rw [Nat.add_left_cancel h]
      · rw [Slot.field_of_lt hi, Slot.field_of_le hj] at h
        cases h
      · rw [Slot.field_of_le hi, Slot.field_of_lt hj] at h
        cases h
      · rw [Slot.field_of_le hi, Slot.field_of_le hj, Field.far.injEq] at h
        rw [h]
    | indirect => exact absurd h (hind i)
  | indirect =>
    cases q with
    | data j => exact absurd h.symm (hind j)
    | indirect => rfl

/-- A structure whose pointers are zeros holds nothing. -/
lemma not_holds_of_zero (h : ∀ w, 34 ≤ w → w ≤ 44 → c f.block (f.word + w) = 0) :
    ¬ Holds c f p b := by
  rintro ⟨hfield, hne, -⟩
  cases hp : p.field with
  | head k =>
    rw [hp] at hne
    obtain ⟨hlo, hhi⟩ := Slot.head_bounds hp
    exact hne (h k hlo hhi)
  | far i =>
    rw [hp] at hfield
    exact hfield.2.2 (h 44 (by decide) (by decide))

/-! ## Steps -/

/-- The pointers of a file stay. -/
structure SamePointers (c c' : Blocks) (f : FilePtr) : Prop where
  type : wordAt c' f.type = wordAt c f.type
  indirect : wordAt c' f.indirect = wordAt c f.indirect
  holds_iff : ∀ p b, Holds c' f p b ↔ Holds c f p b

lemma Agrees.samePointers (h : Agrees c c' f) : SamePointers c c' f :=
  ⟨h.type, h.indirect, fun _ _ => h.holds_iff⟩

/-- The pointers of a file stay if no word of them changes. -/
lemma AddsBlocks.agrees (hg : AddsBlocks s C s') (hf : f.block < s.nextbno)
    (hi : wordAt s.disk f.indirect ≠ 0 → (wordAt s.disk f.indirect).toNat < s.nextbno)
    (hhead : ∀ w, 32 ≤ w → w < 45 → ¬ C f.block (f.word + w))
    (hfar : wordAt s.disk f.indirect ≠ 0 → ∀ i, ¬ C (wordAt s.disk f.indirect).toNat i) :
    Agrees s.disk s'.disk f := by
  intro x hx hfx
  cases x with
  | head k => exact hg.same _ _ hf (hhead k hx.1 (Nat.lt_succ_of_le hx.2))
  | far i => exact hg.same _ _ (hi hfx.2.2) (hfar hfx.2.2 i)

/-- The holders after a step that changes no pointer. -/
lemma heldBy_iff_of_same
    (hold : ∀ f, InImage s f → InImage s' f ∧ SamePointers s.disk s'.disk f)
    (hnew : ∀ f, InImage s' f → ¬ InImage s f → ∀ p b, ¬ Holds s'.disk f p b) (x : FilePtr × Slot)
    (b : ℕ) : HeldBy s' x b ↔ HeldBy s x b := by
  constructor
  · rintro ⟨hf, hb⟩
    by_cases hin : InImage s x.1
    · exact ⟨hin, ((hold _ hin).2.holds_iff _ _).mp hb⟩
    · exact absurd hb (hnew _ hf hin _ _)
  · rintro ⟨hf, hb⟩
    exact ⟨(hold _ hf).1, ((hold _ hf).2.holds_iff _ _).mpr hb⟩

/-- **A step that changes no pointer.** The files that are new hold nothing, and the blocks that are
handed out are held by nobody. -/
lemma AddsBlocks.owned (hg : AddsBlocks s C s') (ho : Owned n s E)
    (hold : ∀ f, InImage s f → InImage s' f ∧ SamePointers s.disk s'.disk f)
    (hnew : ∀ f, InImage s' f → ¬ InImage s f → ∀ p b, ¬ Holds s'.disk f p b)
    (hE : ∀ b < s'.nextbno, b ∈ E' ↔ b ∈ E ∨ s.nextbno ≤ b) : Owned n s' E' where
  custody := (ho.custody.congr (heldBy_iff_of_same hold hnew)).handOut hg.next hE
  index f hf h0 := by
    by_cases hin : InImage s f
    · have hind := (hold f hin).2.indirect
      rw [hind] at h0 ⊢
      exact hg.isIndex (ho.index f hin h0)
    · exact absurd (holds_indirect h0) (hnew f hf hin _ _)
  plain f i b hb ht := by
    have hb' := (heldBy_iff_of_same hold hnew _ _).mp hb
    rw [(hold f hb'.1).2.type] at ht
    rw [hg.type b (ho.custody.bound hb').2.1]
    exact ho.plain f i b hb' ht
  behind x b hb := ho.behind x b ((heldBy_iff_of_same hold hnew _ _).mp hb)

section Keep

variable (h : Typed n s cnt) (ho : Owned n s E) (hg : AddsBlocks s C s')
  (hC : ∀ b w, C b w → ¬ IsEntries s b ∧ ¬ IsIndex s b ∧ b ≠ 1)

include h ho hg hC in
/-- A step that changes no block with structures or pointers keeps the pointers. -/
lemma AddsBlocks.keep_agrees (hf : InImage s f) : Agrees s.disk s'.disk f := by
  apply hg.agrees (h.block_lt hf) (fun hi => (ho.index f hf hi).1)
  · intro w _ _ hc
    obtain ⟨hne, -, hne1⟩ := hC _ _ hc
    obtain rfl | hb := hf.block
    · exact hne1 rfl
    · exact hne hb
  · intro hi i hc
    exact (hC _ _ hc).2.1 (ho.index f hf hi)

include h ho hg hC in
lemma Owned.keep (hE : ∀ b < s'.nextbno, b ∈ E' ↔ b ∈ E ∨ s.nextbno ≤ b) : Owned n s' E' := by
  have hiff : ∀ f, InImage s' f ↔ InImage s f := fun f => hg.inImage_iff (onlyFields_of_not hC)
  apply hg.owned ho (fun f hf => ⟨(hiff f).mpr hf, (hg.keep_agrees h ho hC hf).samePointers⟩) ?_ hE
  intro f hf hin
  exact absurd ((hiff f).mp hf) hin

include h ho hg hC in
lemma TightDirs.keep (ht : TightDirs s) : TightDirs s' := by
  intro f hf
  have hf' := (hg.inImage_iff (onlyFields_of_not hC)).mp hf
  exact (ht f hf').congr (hg.keep_agrees h ho hC hf')

end Keep

/-- A step that changes the pointers of one file keeps those of the other ones. -/
lemma AddsBlocks.other_agrees (h : Typed n s cnt) (ho : Owned n s E) (hf : InImage s f)
    (hg : AddsBlocks s (Touched s f (cnt f)) s') (hg' : InImage s g) (hne : g ≠ f) :
    Agrees s.disk s'.disk g := by
  apply hg.agrees (h.block_lt hg') (fun hi => (ho.index g hg' hi).1)
  · rintro w - hw (⟨hb, hlo, hhi⟩ | ⟨hk, hb⟩)
    · exact hne (h.eq_of_inStruct hg' hf ⟨rfl, by omega, by omega⟩ ⟨hb, by omega, hhi⟩)
    · exact h.block_ne hg' ((h.file f hf).index hk) hb
  · rintro h0 i (⟨hb, -, -⟩ | ⟨hk, hb⟩)
    · exact h.block_ne hf (ho.index g hg' h0) hb.symm
    · -- the two files would hold one block
      have heq : wordAt s.disk g.indirect = wordAt s.disk f.indirect := BitVec.eq_of_toNat_eq hb
      have hold : Holds s.disk f .indirect (wordAt s.disk g.indirect).toNat := by
        rw [heq] at h0 ⊢
        exact holds_indirect h0
      have hsame := ho.custody.once (x := (g, .indirect)) (y := (f, .indirect))
        ⟨hg', holds_indirect h0⟩ ⟨hf, hold⟩
      exact hne (congrArg Prod.fst hsame)

/-! ## `save_block_link` -/

/-- What one block more of a file leaves: its block `k` is the one that nobody held. -/
structure LinksOwned (n : ℕ) (s : DiskImage) (f : FilePtr) (k bno : ℕ) (s' : DiskImage) : Prop where
  owned : Owned n s' ∅
  data : ∀ i b, Holds s'.disk f (.data i) b ↔ Holds s.disk f (.data i) b ∨ i = k ∧ b = bno
  other : ∀ g, InImage s g → g ≠ f → Agrees s.disk s'.disk g

section Link

variable (h : Typed n s cnt) (ho : Owned n s {bno}) (hf : InImage s f)
  (hlo : 2 + nbitblock n ≤ bno) (hlt : bno < s.nextbno)
  (hg : AddsBlocks s (Touched s f (cnt f)) s')

include h ho hf hg in
/-- The holders after a step that changes the pointers of one file. -/
lemma heldBy_iff {New : Slot → ℕ → Prop}
    (hnew : ∀ p b, Holds s'.disk f p b ↔ Holds s.disk f p b ∨ New p b) (y : FilePtr × Slot) (b : ℕ) :
    HeldBy s' y b ↔ HeldBy s y b ∨ y.1 = f ∧ New y.2 b := by
  have hiff : InImage s' y.1 ↔ InImage s y.1 := hg.inImage_iff (onlyFields_touched h hf)
  unfold HeldBy
  rw [hiff]
  by_cases hy : y.1 = f
  · rw [hy, hnew]
    simp [hf]
  · simp only [hy, false_and, or_false]
    refine and_congr_right fun hin => ?_
    exact (hg.other_agrees h ho hf hin hy).holds_iff

include h ho hf hg in
/-- **A step that gives blocks to one file**, if they are blocks for its use. -/
lemma Owned.link {New : Slot → ℕ → Prop}
    (hnew : ∀ p b, Holds s'.disk f p b ↔ Holds s.disk f p b ∨ New p b)
    (hcustody : Custody (HeldBy s') (2 + nbitblock n) s'.nextbno ∅)
    (hindex : wordAt s'.disk f.indirect ≠ 0 → IsIndex s' (wordAt s'.disk f.indirect).toNat)
    (htype : wordAt s'.disk f.type = wordAt s.disk f.type)
    (hplain : ∀ i b, New (.data i) b → wordAt s.disk f.type ≠ ftypeDir → s'.type b = .data)
    (hbehind : ∀ p b, New p b → f.block < b) : Owned n s' ∅ := by
  have hheld := heldBy_iff h ho hf hg hnew
  have hagrees : ∀ g, InImage s g → g ≠ f → Agrees s.disk s'.disk g := fun g hin hne =>
    hg.other_agrees h ho hf hin hne
  refine ⟨hcustody, fun g hg' h0 => ?_, fun g i b hb ht => ?_, fun x b hb => ?_⟩
  · have hin : InImage s g := (hg.inImage_iff (onlyFields_touched h hf)).mp hg'
    by_cases hne : g = f
    · subst hne
      exact hindex h0
    · rw [(hagrees g hin hne).indirect] at h0 ⊢
      exact hg.isIndex (ho.index g hin h0)
  · rcases (hheld _ _).mp hb with hold | ⟨rfl, hb⟩
    · rw [hg.type b (ho.custody.bound hold).2.1]
      apply ho.plain g i b hold
      by_cases hne : g = f
      · rw [hne, ← htype, ← hne]
        exact ht
      · rwa [(hagrees g hold.1 hne).type] at ht
    · exact hplain i b hb (htype ▸ ht)
  · rcases (hheld _ _).mp hb with hold | ⟨hx, hb⟩
    · exact ho.behind x b hold
    · rw [hx]
      exact hbehind _ _ hb

variable (htype : wordAt s'.disk f.type = wordAt s.disk f.type)
  (hplain : wordAt s.disk f.type ≠ ftypeDir → s.type bno = .data) (hbehind : f.block < bno)

include h ho hf hg hlo hlt htype hplain hbehind in
/-- A pointer to the block is stored, and the indirect block stays. -/
lemma linksOwned_of_indirect (hnext : s'.nextbno = s.nextbno)
    (hind : wordAt s'.disk f.indirect = wordAt s.disk f.indirect)
    (hnew : ∀ p b, Holds s'.disk f p b ↔ Holds s.disk f p b ∨ p = .data k ∧ b = bno) :
    LinksOwned n s f k bno s' := by
  have hheld := heldBy_iff h ho hf hg hnew
  refine ⟨ho.link h hf hg hnew ?_ (fun h0 => ?_) htype ?_ ?_, fun i b => ?_,
    fun g hg' hne => hg.other_agrees h ho hf hg' hne⟩
  · rw [hnext, ← Set.sdiff_self (s := {bno})]
    apply ho.custody.take hlo hlt rfl (x := (f, .data k))
    intro y b
    rw [hheld, Prod.ext_iff, and_assoc]
  · rw [hind] at h0 ⊢
    exact hg.isIndex (ho.index f hf h0)
  · rintro i b ⟨-, rfl⟩ hd
    exact (hg.type _ hlt).trans (hplain hd)
  · rintro p b ⟨-, rfl⟩
    exact hbehind
  · rw [hnew]
    simp

include h ho hf hg hlo hlt htype hplain hbehind in
/-- A pointer to the block is stored in a new indirect block. -/
lemma linksOwned_of_new (hnext : s'.nextbno = s.nextbno + 1)
    (hindex : IsIndex s' (wordAt s'.disk f.indirect).toNat)
    (hnew : ∀ p b, Holds s'.disk f p b ↔ Holds s.disk f p b ∨
      (p = .indirect ∧ b = s.nextbno ∨ p = .data k ∧ b = bno)) : LinksOwned n s f k bno s' := by
  have hheld := heldBy_iff h ho hf hg hnew
  refine ⟨ho.link h hf hg hnew ?_ (fun _ => hindex) htype ?_ ?_, fun i b => ?_,
    fun g hg' hne => hg.other_agrees h ho hf hg' hne⟩
  · -- first the indirect block is handed out and taken, then the block
    have hgive : Custody (HeldBy s) (2 + nbitblock n) (s.nextbno + 1) {s.nextbno, bno} := by
      apply ho.custody.handOut (Nat.le_succ _)
      intro b hb
      simp only [Set.mem_insert_iff, Set.mem_singleton_iff]
      omega
    have hfirst : Custody (fun y b => HeldBy s y b ∨ y = (f, Slot.indirect) ∧ b = s.nextbno)
        (2 + nbitblock n) (s.nextbno + 1) ({s.nextbno, bno} \ {s.nextbno}) := by
      apply hgive.take h.ge (Nat.lt_succ_self _) (Set.mem_insert _ _)
      exact fun _ _ => Iff.rfl
    have hsecond : Custody (HeldBy s') (2 + nbitblock n) (s.nextbno + 1)
        (({s.nextbno, bno} \ {s.nextbno}) \ {bno}) := by
      apply hfirst.take (x := (f, Slot.data k)) hlo (hlt.trans (Nat.lt_succ_self _))
        ⟨Set.mem_insert_of_mem _ rfl, hlt.ne⟩
      intro y b
      rw [hheld, Prod.ext_iff, Prod.ext_iff]
      tauto
    rw [hnext]
    convert hsecond using 1
    ext b
    simp
  · rintro i b (⟨hp, -⟩ | ⟨-, rfl⟩) hd
    · cases hp
    · exact (hg.type _ hlt).trans (hplain hd)
  · rintro p b (⟨-, rfl⟩ | ⟨-, rfl⟩)
    · exact h.block_lt hf
    · exact hbehind
  · rw [hnew]
    simp

end Link

/-- Different fields of a file are different words. -/
lemma placeOf_ne (h : Typed n s cnt) (ho : Owned n s E) (hf : InImage s f) {x y : Field}
    (hx : HasField s.disk f x) (hy : HasField s.disk f y) (hne : x ≠ y) :
    placeOf s.disk f x ≠ placeOf s.disk f y := by
  have hapart : ∀ {i w}, HasField s.disk f (.far i) → placeOf s.disk f (.far i) ≠ ⟨f.block, w⟩ :=
    fun hi he => h.block_ne hf (ho.index f hf hi.2.2) (congrArg WordPtr.block he).symm
  cases x with
  | head k =>
    cases y with
    | head l =>
      intro he
      exact hne (congrArg Field.head (Nat.add_left_cancel (congrArg WordPtr.word he)))
    | far i => exact (hapart hy).symm
  | far i =>
    cases y with
    | head l => exact hapart hx
    | far j =>
      intro he
      exact hne (congrArg Field.far (congrArg WordPtr.word he))

/-- The number of a block that nobody held is stored as a pointer. -/
lemma holds_of_store (hind : wordAt c' f.indirect = wordAt c f.indirect)
    (hempty : ∀ b, ¬ Holds c f (.data k) b) (hnew : Holds c' f (.data k) bno)
    (hother : ∀ q : Slot, q ≠ .data k → HasField c f q.field →
      wordAt c' (placeOf c f q.field) = wordAt c (placeOf c f q.field)) (p : Slot) (b : ℕ) :
    Holds c' f p b ↔ Holds c f p b ∨ p = .data k ∧ b = bno := by
  by_cases hp : p = .data k
  · subst hp
    simp only [hempty, false_or, true_and]
    constructor
    · intro hb
      exact hb.2.2.symm.trans hnew.2.2
    · rintro rfl
      exact hnew
  · simp only [hp, false_and, or_false]
    exact holds_congr hind (hother p hp)

section Save

variable (h : Typed n s cnt) (ho : Owned n s {bno}) (hf : InImage s f) (hn : n ≤ 0x40000)
  (hlo : 2 + nbitblock n ≤ bno) (hlt : bno < s.nextbno) (hempty : ∀ b, ¬ Holds s.disk f (.data k) b)
  (hplain : wordAt s.disk f.type ≠ ftypeDir → s.type bno = .data) (hbehind : f.block < bno)

include h hn hlt hlo in
/-- The number of the block, as a word. -/
lemma block_word : BitVec.ofNat 32 bno ≠ 0 ∧ (BitVec.ofNat 32 bno).toNat = bno := by
  have hbn : bno < n := hlt.trans_le h.sound.le
  exact ⟨ofNat_block_ne_zero hn hbn (by omega), toNat_ofNat_block hn hbn⟩

include h ho hf hn hlo hlt hempty hplain hbehind in
/-- The pointer is in the structure, or in the indirect block that was there. -/
lemma linksOwned_field (hk : HasField s.disk f (Slot.data k).field)
    (hl : LinksTyped n s cnt f (s.store (placeOf s.disk f (Slot.data k).field) (BitVec.ofNat 32 bno))) :
    LinksOwned n s f k bno (s.store (placeOf s.disk f (Slot.data k).field) (BitVec.ofNat 32 bno)) := by
  obtain ⟨hne, hnat⟩ := block_word h hn hlo hlt
  obtain ⟨s', hs'⟩ : ∃ s', s.store (placeOf s.disk f (Slot.data k).field) (BitVec.ofNat 32 bno) = s' :=
    ⟨_, rfl⟩
  have hword : ∀ q : Slot, q ≠ .data k → HasField s.disk f q.field →
      wordAt s'.disk (placeOf s.disk f q.field) = wordAt s.disk (placeOf s.disk f q.field) := by
    intro q hq hfield
    rw [← hs']
    exact wordAt_store_of_ne (placeOf_ne h ho hf hfield hk fun he => hq (Slot.field_inj he))
  have hind : wordAt s'.disk f.indirect = wordAt s.disk f.indirect :=
    hword .indirect Slot.noConfusion (by decide : 44 < 64)
  have hval : wordAt s'.disk (placeOf s'.disk f (Slot.data k).field) = BitVec.ofNat 32 bno := by
    rw [placeOf_congr hind, ← hs', wordAt_store]
  rw [hs'] at hl ⊢
  apply linksOwned_of_indirect h ho hf hlo hlt hl.adds hl.type hplain hbehind (by rw [← hs']; rfl) hind
  apply holds_of_store hind hempty ?_ hword
  exact ⟨(hasField_congr hind _).mpr hk, hval.trans_ne hne, (congrArg BitVec.toNat hval).trans hnat⟩

include h ho hf hn hlo hlt hempty hplain hbehind in
/-- The pointer is the first one in a new indirect block. -/
lemma linksOwned_index (hk : 10 ≤ k) (hk' : k < 1024) (h0 : wordAt s.disk f.indirect = 0)
    (hroom : s.nextbno < n)
    (hl : LinksTyped n s cnt f
      (((s.give .index).store f.indirect (BitVec.ofNat 32 s.nextbno)).store
        ⟨(BitVec.ofNat 32 s.nextbno).toNat, k⟩ (BitVec.ofNat 32 bno))) :
    LinksOwned n s f k bno
      (((s.give .index).store f.indirect (BitVec.ofNat 32 s.nextbno)).store
        ⟨(BitVec.ofNat 32 s.nextbno).toNat, k⟩ (BitVec.ofNat 32 bno)) := by
  obtain ⟨hne, hnat⟩ := block_word h hn hlo hlt
  have hinat : (BitVec.ofNat 32 s.nextbno).toNat = s.nextbno := toNat_ofNat_block hn hroom
  have hine : BitVec.ofNat 32 s.nextbno ≠ 0 := ofNat_block_ne_zero hn hroom h.sound.pos
  rw [hinat] at hl ⊢
  obtain ⟨s', hs'⟩ : ∃ s', ((s.give .index).store f.indirect (BitVec.ofNat 32 s.nextbno)).store
    ⟨s.nextbno, k⟩ (BitVec.ofNat 32 bno) = s' := ⟨_, rfl⟩
  rw [hs'] at hl ⊢
  have hblock := h.block_lt hf
  have hhead : ∀ w, w ≠ 44 → s'.disk f.block (f.word + w) = s.disk f.block (f.word + w) := by
    intro w hw
    rw [← hs', store_disk_of_ne fun he => hblock.ne he.1,
      store_disk_of_ne fun he => hw (Nat.add_left_cancel he.2)]
    rfl
  have hind : wordAt s'.disk f.indirect = BitVec.ofNat 32 s.nextbno := by
    rw [← hs', wordAt_store_of_ne fun he => hblock.ne (congrArg WordPtr.block he), wordAt_store]
  -- the words of the new block are zeros, but for the pointer
  have hfar : ∀ i, s'.disk s.nextbno i = if i = k then BitVec.ofNat 32 bno else 0 := by
    intro i
    split_ifs with hik
    · rw [hik, ← hs']
      exact wordAt_store _ ⟨s.nextbno, k⟩ _
    · rw [← hs', store_disk_of_ne fun he => hik he.2,
        store_disk_of_ne fun he => hblock.ne he.1.symm]
      exact h.sound.fresh _ _ le_rfl
  apply linksOwned_of_new h ho hf hlo hlt hl.adds hl.type hplain hbehind (by rw [← hs']; rfl)
  · rw [hind, hinat]
    refine ⟨by rw [← hs']; exact Nat.lt_succ_self _, ?_⟩
    rw [← hs']
    exact Function.update_self s.nextbno BlockType.index s.type
  · intro p b
    cases p with
    | indirect =>
      have hold : ¬ Holds s.disk f .indirect b := fun hb => hb.2.1 h0
      have hval : s'.disk f.block (f.word + 44) = BitVec.ofNat 32 s.nextbno := hind
      rw [holds_head rfl (by decide), hval, hinat]
      constructor
      · rintro ⟨-, rfl⟩
        exact .inr (.inl ⟨rfl, rfl⟩)
      · rintro (hb | ⟨-, rfl⟩ | ⟨hp, -⟩)
        · exact absurd hb hold
        · exact ⟨hine, rfl⟩
        · cases hp
    | data i =>
      rcases Nat.lt_or_ge i 10 with hi | hi
      · rw [holds_head (Slot.field_of_lt hi) (by omega), holds_head (Slot.field_of_lt hi) (by omega),
          hhead _ (by omega)]
        simp only [reduceCtorEq, false_and, Slot.data.injEq, false_or, iff_self_or, and_imp]
        omega
      · have hold : ¬ Holds s.disk f (.data i) b := by
          rintro ⟨hfield, -⟩
          rw [Slot.field_of_le hi] at hfield
          exact hfield.2.2 h0
        simp only [hold, reduceCtorEq, false_and, Slot.data.injEq, false_or]
        constructor
        · intro hb
          have hi' := hb.lt_nindirect
          rw [holds_far hi hi' (hind ▸ hine), hind, hinat, hfar] at hb
          split_ifs at hb with hik
          · exact ⟨hik, hb.2.symm.trans hnat⟩
          · exact absurd rfl hb.1
        · rintro ⟨rfl, rfl⟩
          rw [holds_far hi hk' (hind ▸ hine), hind, hinat, hfar, if_pos rfl]
          exact ⟨hne, hnat⟩

include h ho hf hn hlo hlt hempty hplain hbehind in
/-- **`save_block_link`** gives the block that nobody held to the file. The indirect block, if one is
made, goes to the file as well. -/
theorem saveBlockLink_owned (hl : LinksTyped n s cnt f s')
    (hrun : saveBlockLink n s f k bno = .ok s') : LinksOwned n s f k bno s' := by
  obtain ⟨hk', ⟨hk, rfl⟩ | ⟨hk, h0, rfl⟩ | ⟨hk, h0, hroom, rfl⟩⟩ := saveBlockLink_cases hrun
  · have hplace : f.direct k = placeOf s.disk f (Slot.data k).field := by
      rw [Slot.field_of_lt hk]
      rfl
    rw [hplace] at hl ⊢
    apply linksOwned_field h ho hf hn hlo hlt hempty hplain hbehind ?_ hl
    rw [Slot.field_of_lt hk]
    show 34 + k < 64
    omega
  · have hplace : ⟨(wordAt s.disk f.indirect).toNat, k⟩ = placeOf s.disk f (Slot.data k).field := by
      rw [Slot.field_of_le hk]
      rfl
    rw [hplace] at hl ⊢
    apply linksOwned_field h ho hf hn hlo hlt hempty hplain hbehind ?_ hl
    rw [Slot.field_of_le hk]
    exact ⟨hk, hk', h0⟩
  · exact linksOwned_index h ho hf hn hlo hlt hempty hplain hbehind hk hk' h0 hroom hl

end Save

/-! ## `create_file` -/

/-- The size of a file is no pointer of it. -/
lemma Owned.samePointers_storeSize (h : Typed n s cnt) (ho : Owned n s E) (hf : InImage s f) (x : Word) :
    SamePointers s.disk (s.store f.size x).disk f := by
  have hword : ∀ y : Field, y ≠ .head 32 → HasField s.disk f y →
      wordAt (s.store f.size x).disk (placeOf s.disk f y) = wordAt s.disk (placeOf s.disk f y) :=
    fun y hne hy => wordAt_store_of_ne (placeOf_ne h ho hf (y := .head 32) hy (by decide : 32 < 64) hne)
  have hind : wordAt (s.store f.size x).disk f.indirect = wordAt s.disk f.indirect :=
    hword (.head 44) (by decide) (by decide : 44 < 64)
  refine ⟨hword (.head 33) (by decide) (by decide : 33 < 64), hind, fun p b => holds_congr hind ?_⟩
  apply hword
  intro he
  have := (Slot.head_bounds he).1
  omega

/-- The size of a file is set. -/
lemma Owned.storeSize (h : Typed n s cnt) (ho : Owned n s ∅) (hf : InImage s f) (x : Word) :
    Owned n (s.store f.size x) ∅ := by
  obtain ⟨hg, -⟩ := h.storeSize hf x
  have hiff : ∀ g, InImage (s.store f.size x) g ↔ InImage s g :=
    fun g => hg.inImage_iff (onlyFields_touched h hf)
  apply hg.owned ho
  · intro g hin
    refine ⟨(hiff g).mpr hin, ?_⟩
    by_cases hne : g = f
    · rw [hne]
      exact ho.samePointers_storeSize h hf x
    · exact (hg.other_agrees h ho hf hin hne).samePointers
  · intro g hin hout
    exact absurd ((hiff g).mp hin) hout
  · intro b hb
    simp only [Set.mem_empty_iff_false, false_or, false_iff, not_le]
    exact hb

section Create

variable (h : Typed n s cnt) (hz : Sized s cnt) (hn : n ≤ 0x40000) (hf : InImage s f)
  (hd : wordAt s.disk f.type = ftypeDir) (ho : Owned n s ∅) (ht : TightDirs s)

include hz hf hd in
/-- The number of blocks of a directory. -/
lemma Sized.sizeBlocksOf_eq : sizeBlocksOf s.disk f = cnt f := by
  obtain ⟨hsize, hle⟩ := (hz f hf).dir hd
  rw [sizeBlocksOf, hsize, BitVec.toNat_ofNat, Nat.mod_eq_of_lt (by omega)]
  omega

include h hz hn hf hd ho ht in
/-- **`make_link_block`** gives a new block to the directory. -/
lemma makeLinkBlock_owned {r : ℕ × DiskImage} (hrun : makeLinkBlock n s f (cnt f) = .ok r) :
    Owned n r.2 ∅ ∧ TightDirs r.2 := by
  unfold makeLinkBlock at hrun
  obtain ⟨q, hnext, hrun⟩ := bind_ok_iff.mp hrun
  obtain ⟨hlt, rfl⟩ := nextBlock_cases hnext
  obtain ⟨s2, hsave, hrun⟩ := bind_ok_iff.mp hrun
  obtain rfl := Except.ok.inj hrun
  -- the block, held by nobody
  have hgive := addsBlocks_give h.sound .file
  have hC : ∀ b w, (fun _ _ => False : ℕ → ℕ → Prop) b w → ¬ IsEntries s b ∧ ¬ IsIndex s b ∧ b ≠ 1 :=
    fun _ _ hc => hc.elim
  have h1 : Typed n (s.give .file) cnt := h.keep hgive hC (h.sound.give hlt .file)
  have hf1 : InImage (s.give .file) f := (hgive.inImage_iff (onlyFields_of_not hC)).mpr hf
  have ho1 : Owned n (s.give .file) {s.nextbno} := by
    apply ho.keep h hgive hC
    intro b hb
    rw [give_nextbno] at hb
    simp only [Set.mem_singleton_iff, Set.mem_empty_iff_false, false_or]
    omega
  have ht1 : TightDirs (s.give .file) := ht.keep h ho hgive hC
  have hcount := hz.sizeBlocksOf_eq hf hd
  have hempty : ∀ b, ¬ Holds (s.give .file).disk f (.data (cnt f)) b := by
    intro b hb
    exact absurd (ht f hf hd _ b hb) (by omega)
  -- the pointer to it
  have hlink := saveBlockLink_typed h1 hf1 hn rfl (Nat.lt_succ_self _)
    (fun _ => Function.update_self _ _ _) (fun h10 => (h.file f hf).noIndex hd h10.le) hsave
  have hl := saveBlockLink_owned h1 ho1 hf1 hn h.ge (Nat.lt_succ_self _) hempty
    (fun hne => absurd hd hne) (h.block_lt hf) hlink hsave
  have hf2 : InImage s2 f := (hlink.adds.inImage_iff (onlyFields_touched h1 hf1)).mpr hf1
  -- the size of the directory
  obtain ⟨hadds, -⟩ := hlink.typed.storeSize hf2 (s2.load f.size + 4096)
  refine ⟨hl.owned.storeSize hlink.typed hf2 _, fun g hg => ?_⟩
  have hg2 : InImage s2 g := (hadds.inImage_iff (onlyFields_touched hlink.typed hf2)).mp hg
  by_cases hne : g = f
  · subst hne
    intro _ i b hb
    have hsize : sizeBlocksOf (s2.store g.size (s2.load g.size + 4096)).disk g = cnt g + 1 := by
      have hlt := hlink.lt
      have hold : wordAt (s.give .file).disk g.size = BitVec.ofNat 32 (4096 * cnt g) :=
        ((hz g hf).dir hd).1
      have hnew : BitVec.ofNat 32 (4096 * cnt g) + 4096 = BitVec.ofNat 32 (4096 * (cnt g + 1)) := by
        rw [Nat.mul_succ, BitVec.ofNat_add]
        rfl
      rw [sizeBlocksOf, wordAt_store, DiskImage.load_eq, hlink.size, hold, hnew, BitVec.toNat_ofNat,
        Nat.mod_eq_of_lt (by omega)]
      omega
    have hsame := (hl.owned.samePointers_storeSize hlink.typed hf2 (s2.load g.size + 4096)).holds_iff
    rw [hsize]
    rcases (hl.data i b).mp ((hsame _ _).mp hb) with hold | ⟨rfl, -⟩
    · have := ht g hf hd i b hold
      omega
    · exact Nat.lt_succ_self _
  · have hg1 : InImage (s.give .file) g :=
      (hlink.adds.inImage_iff (onlyFields_touched h1 hf1)).mp hg2
    exact ((ht1 g hg1).congr (hl.other g hg1 hne)).congr
      (hadds.other_agrees hlink.typed hl.owned hf2 hg2 hne)

include h hz hn hf hd ho ht in
/-- **`create_file`** keeps the holders of the blocks, and the block that it makes is held. -/
theorem createFile_owned {r : FilePtr × DiskImage} (hrun : createFile n s f = .ok r) :
    Owned n r.2 ∅ ∧ TightDirs r.2 := by
  have hblocks : (s.load f.size).toNat / 4096 = cnt f := hz.sizeBlocksOf_eq hf hd
  unfold createFile at hrun
  simp only [hblocks] at hrun
  obtain ⟨o, -, hrun⟩ := bind_ok_iff.mp hrun
  cases o with
  | some g =>
    obtain rfl := Except.ok.inj hrun
    exact ⟨ho, ht⟩
  | none =>
    obtain ⟨q, hmake, hrun⟩ := bind_ok_iff.mp hrun
    obtain ⟨-, -, hrun⟩ := bind_ok_iff.mp hrun
    obtain rfl := Except.ok.inj hrun
    exact makeLinkBlock_owned h hz hn hf hd ho ht hmake

end Create

end MosVolca
