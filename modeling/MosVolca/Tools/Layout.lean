import MosVolca.Fs.Namespace
import MosVolca.Library.Bounded
import MosVolca.Library.Footprint
import MosVolca.Tools.Fsformat

/-!
# Blocks in order

The formatter hands out the blocks one after the other and only adds to what it has written. At each
point of the program some words below `nextbno` are open: those that the structures which are being
written will still change. The other ones are settled and stay. A block more for a file, and a structure
more in a directory, each have one lemma that says which blocks they need and which words they change.

## Main definitions

* `MosVolca.Settled`, `MosVolca.Evolves` — the words that stay, and what a part of the program does to
  them.
* `MosVolca.Linked`, `MosVolca.OpenPointer` — a structure with its first blocks, and the words that are
  open when more are added.
* `MosVolca.DirAt`, `MosVolca.OpenDir` — a directory with its first entries, and the words that are
  open when more are added.

## Main results

* `MosVolca.saveBlockLink_needs` — one block more of a file.
* `MosVolca.createFile_needs` — one structure more of a directory.
-/

namespace MosVolca

open Bounded Footprint

@[simp] lemma ok_then {α β : Type} (a : α) (m : α → Except FormatStop β) :
    (Except.ok a >>= m) = m a := rfl

@[simp] lemma error_then {α β : Type} (e : FormatStop) (m : α → Except FormatStop β) :
    (Except.error e >>= m) = .error e := rfl

@[simp] lemma pure_then {α β : Type} (a : α) (m : α → Except FormatStop β) :
    ((pure a : Except FormatStop α) >>= m) = m a := rfl

/-- An index into `disk` that is outside of it. -/
def FormatStop.IsOutside (e : FormatStop) : Prop := ∃ i, e = .outside i

/-- The blocks from `nextbno` on have not been written. -/
structure Sound (n : ℕ) (s : DiskImage) : Prop where
  pos : 0 < s.nextbno
  le : s.nextbno ≤ n
  fresh : ∀ b w, s.nextbno ≤ b → s.disk b w = 0

/-! ## Words that stay -/

/-- The word is in a block that has been handed out and is not one of the words `D`. -/
def Settled (s : DiskImage) (D : ℕ → ℕ → Prop) (b w : ℕ) : Prop := b < s.nextbno ∧ ¬ D b w

/-- What is settled stays settled and stays as it is. -/
structure Evolves (s : DiskImage) (D : ℕ → ℕ → Prop) (s' : DiskImage) (D' : ℕ → ℕ → Prop) : Prop where
  le : s.nextbno ≤ s'.nextbno
  same : ∀ b w, Settled s D b w → s'.disk b w = s.disk b w
  settled : ∀ b w, Settled s D b w → ¬ D' b w

variable {n : ℕ} {s s1 s' : DiskImage} {D D1 D' : ℕ → ℕ → Prop} {f g : FilePtr} {lo k i b w bno : ℕ}

lemma Evolves.settled' (h : Evolves s D s' D') (hb : Settled s D b w) : Settled s' D' b w :=
  ⟨hb.1.trans_le h.le, h.settled b w hb⟩

lemma Evolves.refl (s : DiskImage) (D : ℕ → ℕ → Prop) : Evolves s D s D :=
  ⟨le_rfl, fun _ _ _ => rfl, fun _ _ hb => hb.2⟩

lemma Evolves.trans (h : Evolves s D s1 D1) (h' : Evolves s1 D1 s' D') : Evolves s D s' D' where
  le := h.le.trans h'.le
  same b w hb := (h'.same b w (h.settled' hb)).trans (h.same b w hb)
  settled b w hb := h'.settled b w (h.settled' hb)

/-! ## Blocks -/

/-- The state after a block is handed out. -/
def DiskImage.give (s : DiskImage) (type : BlockType) : DiskImage :=
  { s with type := Function.update s.type s.nextbno type, nextbno := s.nextbno + 1 }

@[simp] lemma DiskImage.give_nextbno (s : DiskImage) (type : BlockType) :
    (s.give type).nextbno = s.nextbno + 1 := rfl

@[simp] lemma DiskImage.give_disk (s : DiskImage) (type : BlockType) :
    (s.give type).disk = s.disk := rfl

lemma diskIndex_of_lt (h : i < n) : diskIndex n i = .ok () := if_pos h

lemma diskIndex_of_le (h : n ≤ i) : diskIndex n i = .error (.outside i) := if_neg (by omega)

lemma nextBlock_of_lt (h : s.nextbno < n) (type : BlockType) :
    nextBlock n s type = .ok (s.nextbno, s.give type) := by
  rw [nextBlock, diskIndex, if_pos h]
  rfl

lemma nextBlock_of_le (h : n ≤ s.nextbno) (type : BlockType) :
    nextBlock n s type = .error (.outside s.nextbno) := by
  rw [nextBlock, diskIndex, if_neg (by omega)]
  rfl

/-- What `next_block` does, if it ends well. -/
lemma nextBlock_cases {type : BlockType} {r : ℕ × DiskImage} (h : nextBlock n s type = .ok r) :
    s.nextbno < n ∧ r = (s.nextbno, s.give type) := by
  rcases Nat.lt_or_ge s.nextbno n with hlt | hge
  · rw [nextBlock_of_lt hlt] at h
    exact ⟨hlt, (Except.ok.inj h).symm⟩
  · rw [nextBlock_of_le hge] at h
    cases h

lemma Sound.give (h : Sound n s) (hlt : s.nextbno < n) (type : BlockType) :
    Sound n (s.give type) where
  pos := Nat.succ_pos _
  le := hlt
  fresh b w hb := by
    rw [DiskImage.give_nextbno] at hb
    exact h.fresh b w (by omega)

/-! ## Pointers -/

/-- The words that change when blocks are added to a file with `k` blocks. -/
def OpenPointer (c : Blocks) (f : FilePtr) (k b w : ℕ) : Prop :=
  b = f.block ∧ (f.word + 34 + k ≤ w ∧ w < f.word + 44 ∨ w = f.word + 44 ∧ k ≤ 10) ∨
    10 < k ∧ b = (wordAt c f.indirect).toNat ∧ k ≤ w

/-- A file with `k` blocks, whose indirect block is there when it is needed. It is one of those from
`lo` on. -/
structure Linked (c : Blocks) (next lo : ℕ) (f : FilePtr) (k : ℕ) : Prop where
  below : f.block < lo
  noIndex : k ≤ 10 → wordAt c f.indirect = 0
  index : 10 < k → lo ≤ (wordAt c f.indirect).toNat ∧ (wordAt c f.indirect).toNat < next

/-- The blocks for pointers that are handed out when block `k` is added. -/
def indexCost (k : ℕ) : ℕ := if k = 10 then 1 else 0

/-- The pointer `i` of the file points to block `b`, and is among the words `A`. -/
structure PointsIn (A : ℕ → ℕ → Prop) (c : Blocks) (f : FilePtr) (i b : ℕ) : Prop where
  eq : blockOf c f i = some b
  place : A (placeOf c f (Slot.data i).field).block (placeOf c f (Slot.data i).field).word
  indirect : 10 ≤ i → A f.block (f.word + 44)

/-- The word is in the structure. -/
def InStruct (f : FilePtr) (b w : ℕ) : Prop := b = f.block ∧ f.word ≤ w ∧ w < f.word + 64

/-- The settled words of a structure and of the blocks from `lo` on. -/
def Own (s : DiskImage) (lo : ℕ) (f : FilePtr) (D : ℕ → ℕ → Prop) (b w : ℕ) : Prop :=
  (lo ≤ b ∨ InStruct f b w) ∧ Settled s D b w

namespace PointsIn

variable {A : ℕ → ℕ → Prop} {c : Blocks}

/-- **A pointer rests on its own words.** -/
lemma rests (h : PointsIn A c f i b) : Rests A (fun c => blockOf c f i = some b) c := by
  obtain ⟨heq, hplace, hind⟩ := h
  intro c' hc
  rw [blockOf_eq_some] at heq ⊢
  obtain ⟨hfield, hne, hval⟩ := heq
  rcases Nat.lt_or_ge i 10 with hlt | hge
  · have hf : (Slot.data i).field = .head (34 + i) := if_pos hlt
    have hword : wordAt c' (placeOf c' f (Slot.data i).field) =
        wordAt c (placeOf c f (Slot.data i).field) := by
      rw [hf] at hplace ⊢
      exact hc _ _ hplace
    refine ⟨?_, hword ▸ hne, hword ▸ hval⟩
    rw [hf] at hfield ⊢
    exact hfield
  · have hf : (Slot.data i).field = .far i := if_neg (by simp only [ndirect]; omega)
    have hi : wordAt c' f.indirect = wordAt c f.indirect := hc _ _ (hind hge)
    have hword : wordAt c' (placeOf c' f (Slot.data i).field) =
        wordAt c (placeOf c f (Slot.data i).field) := by
      rw [hf, placeOf, placeOf, hi]
      rw [hf] at hplace
      exact hc _ _ hplace
    refine ⟨?_, hword ▸ hne, hword ▸ hval⟩
    rw [hf] at hfield ⊢
    exact ⟨hfield.1, hfield.2.1, hi ▸ hfield.2.2⟩

/-- The words of a pointer, one by one. -/
lemma inter {B : ℕ → ℕ → Prop} (h : PointsIn A c f i b)
    (hdir : i < 10 → B f.block (f.word + (34 + i)))
    (hfar : 10 ≤ i → B (wordAt c f.indirect).toNat i ∧ B f.block (f.word + 44)) :
    PointsIn (fun b w => B b w ∧ A b w) c f i b := by
  obtain ⟨heq, hplace, hind⟩ := h
  refine ⟨heq, ⟨?_, hplace⟩, fun h10 => ⟨(hfar h10).2, hind h10⟩⟩
  rcases Nat.lt_or_ge i 10 with hlt | hge
  · have hf : (Slot.data i).field = .head (34 + i) := if_pos hlt
    rw [hf]
    exact hdir hlt
  · have hf : (Slot.data i).field = .far i := if_neg (by simp only [ndirect]; omega)
    rw [hf]
    exact (hfar hge).1

/-- The words of a pointer to one of the first blocks belong to the structure. -/
lemma own (h : PointsIn (Settled s D) s.disk f i b) (hl : Linked s.disk s.nextbno lo f k)
    (hi : i < k) : PointsIn (Own s lo f D) s.disk f i b :=
  h.inter (fun _ => .inr ⟨rfl, by omega, by omega⟩)
    fun _ => ⟨.inl (hl.index (by omega)).1, .inr ⟨rfl, by omega, by omega⟩⟩

end PointsIn

/-- What rests on the words of a structure stays. -/
lemma Evolves.rests {P : Blocks → Prop} (h : Evolves s D s' D')
    (hp : Rests (Own s lo f D) P s.disk) : Rests (Own s' lo f D') P s'.disk :=
  (hp.agree fun b w hb => h.same b w hb.2).mono fun _ _ hb => ⟨hb.1, h.settled' hb.2⟩

namespace DiskImage

@[simp] lemma load_eq (s : DiskImage) (p : WordPtr) : s.load p = wordAt s.disk p := rfl

@[simp] lemma store_nextbno (s : DiskImage) (p : WordPtr) (x : Word) :
    (s.store p x).nextbno = s.nextbno := rfl

/-- The other words stay. -/
lemma store_disk_of_ne {p : WordPtr} {x : Word} (h : ¬ (b = p.block ∧ w = p.word)) :
    (s.store p x).disk b w = s.disk b w :=
  TwoLevel.write_of_ne (not_and_or.mp h)

/-- The word is read back. -/
@[simp] lemma wordAt_store (s : DiskImage) (p : WordPtr) (x : Word) :
    wordAt (s.store p x).disk p = x := wordAt_putWord_self s.disk p x

lemma wordAt_store_of_ne {p q : WordPtr} {x : Word} (h : q ≠ p) :
    wordAt (s.store p x).disk q = wordAt s.disk q := wordAt_putWord_of_ne h

end DiskImage

open DiskImage

lemma Sound.store {p : WordPtr} {x : Word} (h : Sound n s) (hp : p.block < s.nextbno) :
    Sound n (s.store p x) where
  pos := h.pos
  le := h.le
  fresh b w hb := by
    change s.nextbno ≤ b at hb
    rw [store_disk_of_ne (by rintro ⟨rfl, -⟩; omega), h.fresh b w hb]

/-- A word that is not settled is stored. -/
lemma evolves_store {p : WordPtr} {x : Word} (hp : ¬ Settled s D p.block p.word)
    (hD : ∀ b w, Settled s D b w → ¬ D' b w) : Evolves s D (s.store p x) D' where
  le := le_rfl
  same b w hb := store_disk_of_ne (by rintro ⟨rfl, rfl⟩; exact hp hb)
  settled := hD

/-- The pointers that were there are not open afterwards. -/
lemma not_openPointer_succ {c c' : Blocks} {next : ℕ}
    (hind : 10 < k → wordAt c' f.indirect = wordAt c f.indirect)
    (hnew : k = 10 → next ≤ (wordAt c' f.indirect).toNat) (hb : b < next)
    (h : ¬ OpenPointer c f k b w) : ¬ OpenPointer c' f (k + 1) b w := by
  contrapose! h
  rcases h with ⟨hbf, hw⟩ | ⟨hk, hbi, hw⟩
  · exact .inl ⟨hbf, by omega⟩
  · rcases Nat.lt_or_ge 10 k with hlt | hge
    · rw [hind hlt] at hbi
      exact .inr ⟨hlt, hbi, by omega⟩
    · have := hnew (by omega)
      omega

/-- A block number that the disk can have is not 0 as a word, and not cut off. -/
lemma toNat_ofNat_block (hn : n ≤ 0x40000) (hb : b < n) : (BitVec.ofNat 32 b).toNat = b := by
  rw [BitVec.toNat_ofNat, Nat.mod_eq_of_lt (by omega)]

lemma ofNat_block_ne_zero (hn : n ≤ 0x40000) (hb : b < n) (h0 : 0 < b) :
    BitVec.ofNat 32 b ≠ 0 := by
  intro h
  have := congrArg BitVec.toNat h
  rw [toNat_ofNat_block hn hb] at this
  exact absurd this (by simp; omega)

/-- What adding block `k` leaves. -/
structure LinksBlock (n : ℕ) (s : DiskImage) (lo : ℕ) (f : FilePtr) (k bno : ℕ) (s' : DiskImage) :
    Prop where
  next : s'.nextbno = s.nextbno + indexCost k
  sound : Sound n s'
  linked : Linked s'.disk s'.nextbno lo f (k + 1)
  points : PointsIn (Settled s' (OpenPointer s'.disk f (k + 1))) s'.disk f k bno
  index : k = 10 → (wordAt s'.disk f.indirect).toNat = s.nextbno
  evolves : Evolves s (OpenPointer s.disk f k) s' (OpenPointer s'.disk f (k + 1))

/-- The block that was handed out before is not the indirect block. -/
lemma LinksBlock.ne_index (hp : LinksBlock n s lo f k bno s') (hl : Linked s.disk bno lo f k)
    (hlt : bno < s.nextbno) (hk : 10 ≤ k) :
    bno ≠ (wordAt s'.disk f.indirect).toNat := by
  have hbelow := hl.below
  rcases Nat.lt_or_ge 10 k with h11 | h10
  · have hind := hl.index h11
    have hsame : wordAt s'.disk f.indirect = wordAt s.disk f.indirect := by
      refine hp.evolves.same _ _ ⟨by simp only [FilePtr.indirect]; omega, ?_⟩
      rintro (⟨-, hw⟩ | ⟨-, hbi, -⟩)
      · simp only [FilePtr.indirect] at hw
        omega
      · change f.block = _ at hbi
        omega
    rw [hsame]
    omega
  · rw [hp.index (by omega)]
    omega

section AddBlock

variable (h : Sound n s) (hl : Linked s.disk s.nextbno lo f k) (hlo : lo ≤ s.nextbno)
  (hn : n ≤ 0x40000) (hb : bno < n) (h0 : 0 < bno)

include h hl hlo hn hb h0 in
/-- A pointer in the structure. -/
lemma linksBlock_direct (hk : k < 10) :
    LinksBlock n s lo f k bno (s.store (f.direct k) (BitVec.ofNat 32 bno)) := by
  have hind : wordAt (s.store (f.direct k) (BitVec.ofNat 32 bno)).disk f.indirect =
      wordAt s.disk f.indirect := by
    apply wordAt_store_of_ne
    intro he
    have := congrArg WordPtr.word he
    simp only [FilePtr.indirect, FilePtr.direct] at this
    omega
  have hcost : indexCost k = 0 := if_neg (by omega)
  have hfield : (Slot.data k).field = .head (34 + k) := if_pos hk
  have hplace : placeOf (s.store (f.direct k) (BitVec.ofNat 32 bno)).disk f (Slot.data k).field =
      f.direct k := by
    rw [hfield]
    rfl
  have hbelow := hl.below
  refine ⟨by rw [hcost]; rfl, h.store (hbelow.trans_le hlo), ⟨hbelow, fun hk10 => ?_, fun hk10 => ?_⟩,
    ⟨?_, ?_, fun hk10 => absurd hk10 (by omega)⟩, fun hk10 => absurd hk10 (by omega), ?_⟩
  · rw [hind, hl.noIndex (by omega)]
  · omega
  · rw [blockOf_eq_some, Holds, hplace, wordAt_store, toNat_ofNat_block hn hb, hfield]
    exact ⟨by change 34 + k < 64; omega, ofNat_block_ne_zero hn hb h0, rfl⟩
  · rw [hplace]
    refine ⟨hbelow.trans_le hlo, ?_⟩
    rintro (⟨-, hw⟩ | ⟨hk10, -⟩)
    · simp only [FilePtr.direct] at hw
      omega
    · omega
  · refine evolves_store ?_ fun b w hs =>
      not_openPointer_succ (fun hk10 => ?_) (fun hk10 => ?_) hs.1 hs.2
    · rintro ⟨-, hopen⟩
      refine hopen (.inl ⟨rfl, .inl ⟨?_, ?_⟩⟩) <;> simp only [FilePtr.direct] <;> omega
    · omega
    · omega

include h hl hlo hn hb h0 in
/-- A pointer in the indirect block. -/
lemma linksBlock_far (hk : 10 < k) (hk' : k < 1024) :
    LinksBlock n s lo f k bno
      (s.store ⟨(wordAt s.disk f.indirect).toNat, k⟩ (BitVec.ofNat 32 bno)) := by
  have hbelow := hl.below
  obtain ⟨hge, hlt⟩ := hl.index hk
  have hind : wordAt (s.store ⟨(wordAt s.disk f.indirect).toNat, k⟩ (BitVec.ofNat 32 bno)).disk
      f.indirect = wordAt s.disk f.indirect := by
    apply wordAt_store_of_ne
    intro he
    have : f.block = (wordAt s.disk f.indirect).toNat := congrArg WordPtr.block he
    omega
  have hcost : indexCost k = 0 := if_neg (by omega)
  have hfield : (Slot.data k).field = .far k := if_neg (by simp only [ndirect]; omega)
  have hplace : placeOf (s.store ⟨(wordAt s.disk f.indirect).toNat, k⟩ (BitVec.ofNat 32 bno)).disk f
      (Slot.data k).field = ⟨(wordAt s.disk f.indirect).toNat, k⟩ := by
    rw [hfield, placeOf, hind]
  have hne : wordAt s.disk f.indirect ≠ 0 := by
    intro he
    rw [he] at hge
    exact absurd hge (by simp; omega)
  refine ⟨by rw [hcost]; rfl, h.store hlt, ⟨hbelow, fun hk10 => absurd hk10 (by omega), fun _ => ?_⟩,
    ⟨?_, ?_, fun _ => ⟨hbelow.trans_le hlo, ?_⟩⟩, fun hk10 => absurd hk10 (by omega), ?_⟩
  · rw [hind]
    exact ⟨hge, hlt⟩
  · rw [blockOf_eq_some, Holds, hplace, wordAt_store, toNat_ofNat_block hn hb, hfield]
    refine ⟨⟨?_, ?_, ?_⟩, ofNat_block_ne_zero hn hb h0, rfl⟩
    · simp only [ndirect]
      omega
    · exact hk'
    · rwa [hind]
  · rw [hplace]
    refine ⟨hlt, ?_⟩
    rintro (⟨he, -⟩ | ⟨-, -, hw⟩)
    · simp only at he
      omega
    · simp only at hw
      omega
  · rintro (⟨-, hw⟩ | ⟨-, he, -⟩)
    · omega
    · rw [hind] at he
      omega
  · refine evolves_store ?_ fun b w hs =>
      not_openPointer_succ (fun _ => hind) (fun hk10 => ?_) hs.1 hs.2
    · rintro ⟨-, hopen⟩
      exact hopen (.inr ⟨hk, rfl, le_rfl⟩)
    · omega

include h hl hlo hn hb h0 in
/-- The first pointer in the indirect block, which is the next block. -/
lemma linksBlock_index {s1 : DiskImage} (hk : k = 10) (hnext : s1.nextbno = s.nextbno + 1)
    (hdisk : s1.disk = s.disk) (hs1 : Sound n s1) :
    LinksBlock n s lo f k bno ((s1.store f.indirect (BitVec.ofNat 32 s.nextbno)).store
      ⟨s.nextbno, k⟩ (BitVec.ofNat 32 bno)) := by
  have hbelow := hl.below
  have hle := hs1.le
  set s2 := s1.store f.indirect (BitVec.ofNat 32 s.nextbno) with hs2
  set s3 := s2.store ⟨s.nextbno, k⟩ (BitVec.ofNat 32 bno) with hs3
  have hnat : (BitVec.ofNat 32 s.nextbno).toNat = s.nextbno := toNat_ofNat_block hn (by omega)
  have hind : wordAt s3.disk f.indirect = BitVec.ofNat 32 s.nextbno := by
    rw [hs3, wordAt_store_of_ne, hs2, wordAt_store]
    intro he
    have : f.block = s.nextbno := congrArg WordPtr.block he
    omega
  have hfield : (Slot.data k).field = .far k := if_neg (by simp only [ndirect]; omega)
  have hplace : placeOf s3.disk f (Slot.data k).field = ⟨s.nextbno, k⟩ := by
    rw [hfield, placeOf, hind, hnat]
  have hne : BitVec.ofNat 32 s.nextbno ≠ 0 := ofNat_block_ne_zero hn (by omega) h.pos
  have hcost : indexCost k = 1 := if_pos hk
  have hnext3 : s3.nextbno = s.nextbno + 1 := hnext
  have hclosed : ∀ b w, b < s.nextbno → ¬ OpenPointer s.disk f k b w →
      ¬ OpenPointer s3.disk f (k + 1) b w := fun b w hlt =>
    not_openPointer_succ (fun hk10 => absurd hk10 (by omega)) (fun _ => by rw [hind, hnat]) hlt
  have hother : ∀ b w, b < s.nextbno → ¬ OpenPointer s.disk f k b w →
      s3.disk b w = s.disk b w := by
    intro b w hlt hopen
    rw [hs3, store_disk_of_ne (by rintro ⟨rfl, -⟩; exact absurd hlt (lt_irrefl _)), hs2,
      store_disk_of_ne, hdisk]
    rintro ⟨hbf, hw⟩
    exact hopen (.inl ⟨hbf, .inr ⟨hw, by omega⟩⟩)
  refine ⟨by rw [hcost]; exact hnext3, ?_, ⟨hbelow, fun hk10 => absurd hk10 (by omega), fun _ => ?_⟩,
    ⟨?_, ?_, fun _ => ⟨?_, ?_⟩⟩, fun _ => by rw [hind, hnat],
    ⟨by omega, fun b w hs => hother b w hs.1 hs.2, fun b w hs => hclosed b w hs.1 hs.2⟩⟩
  · refine (hs1.store ?_).store ?_
    · change f.block < s1.nextbno
      omega
    · change s.nextbno < s1.nextbno
      omega
  · rw [hind, hnat, hnext3]
    omega
  · rw [blockOf_eq_some, Holds, hplace, hs3, wordAt_store, toNat_ofNat_block hn hb, hfield]
    refine ⟨⟨?_, ?_, ?_⟩, ofNat_block_ne_zero hn hb h0, rfl⟩
    · simp only [ndirect]
      omega
    · simp only [nindirect]
      omega
    · rw [← hs3, hind]
      exact hne
  · rw [hplace]
    refine ⟨?_, ?_⟩
    · change s.nextbno < s3.nextbno
      omega
    · rintro (⟨he, -⟩ | ⟨-, -, hw⟩)
      · simp only at he
        omega
      · simp only at hw
        omega
  · omega
  · rintro (⟨-, hw⟩ | ⟨-, he, -⟩)
    · omega
    · rw [hind, hnat] at he
      omega

include h hl hlo hn hb h0 in
/-- **`save_block_link`** adds one pointer, and the indirect block before its first one. -/
lemma saveBlockLink_needs (hk : k < 1024) :
    Needs n FormatStop.IsOutside (s.nextbno + indexCost k) (LinksBlock n s lo f k bno)
      (saveBlockLink n s f k bno) := by
  have hbelow := hl.below
  unfold saveBlockLink
  rw [if_neg (by simp only [nindirect]; omega)]
  split_ifs with hdir
  · have hcost : indexCost k = 0 := if_neg (by simp only [ndirect] at hdir; omega)
    exact .ok (by rw [hcost]; exact h.le) (linksBlock_direct h hl hlo hn hb h0 hdir)
  · simp only [ndirect] at hdir
    by_cases hk10 : k = 10
    · -- the indirect block is made: it is the next block
      have hcost : indexCost k = 1 := if_pos hk10
      rw [needIndex, DiskImage.load_eq, if_pos (hl.noIndex hk10.le), hcost]
      rcases Nat.lt_or_ge s.nextbno n with hlt | hge
      · have hnat : (BitVec.ofNat 32 s.nextbno).toNat = s.nextbno := toNat_ofNat_block hn hlt
        rw [nextBlock_of_lt hlt]
        simp only [ok_then, pure_then, DiskImage.load_eq, wordAt_store, hnat, diskIndex_of_lt hlt]
        exact .ok hlt (linksBlock_index h hl hlo hn hb h0 hk10 rfl rfl (h.give hlt _))
      · rw [nextBlock_of_le hge]
        exact .short (by omega) ⟨_, rfl⟩
    · have hcost : indexCost k = 0 := if_neg hk10
      obtain ⟨hge, hlt⟩ := hl.index (by omega)
      have hne : wordAt s.disk f.indirect ≠ 0 := by
        intro he
        rw [he] at hge
        exact absurd hge (by simp; omega)
      have hneed : needIndex n s f = .ok s := by
        rw [needIndex, DiskImage.load_eq, if_neg hne]
        rfl
      simp only [hneed, ok_then, DiskImage.load_eq, diskIndex_of_lt (hlt.trans_le h.le)]
      exact .ok (by rw [hcost]; exact h.le) (linksBlock_far h hl hlo hn hb h0 (by omega) hk)

end AddBlock

/-- What `save_block_link` does, if it ends well: the pointer is in the structure, or in the indirect
block that was there, or in a new one. -/
lemma saveBlockLink_cases (hrun : saveBlockLink n s f k bno = .ok s') : k < 1024 ∧
    (k < 10 ∧ s' = s.store (f.direct k) (BitVec.ofNat 32 bno) ∨
      10 ≤ k ∧ wordAt s.disk f.indirect ≠ 0 ∧
        s' = s.store ⟨(wordAt s.disk f.indirect).toNat, k⟩ (BitVec.ofNat 32 bno) ∨
      10 ≤ k ∧ wordAt s.disk f.indirect = 0 ∧ s.nextbno < n ∧
        s' = ((s.give .index).store f.indirect (BitVec.ofNat 32 s.nextbno)).store
          ⟨(BitVec.ofNat 32 s.nextbno).toNat, k⟩ (BitVec.ofNat 32 bno)) := by
  unfold saveBlockLink at hrun
  split_ifs at hrun with hbig hdir
  · exact ⟨not_le.mp hbig, .inl ⟨hdir, (Except.ok.inj hrun).symm⟩⟩
  · refine ⟨not_le.mp hbig, .inr ?_⟩
    obtain ⟨s1, hneed, hrun⟩ := bind_ok_iff.mp hrun
    obtain ⟨-, -, hrun⟩ := bind_ok_iff.mp hrun
    obtain rfl := Except.ok.inj hrun
    rw [needIndex, DiskImage.load_eq] at hneed
    split_ifs at hneed with h0
    · obtain ⟨r, hnext, hneed⟩ := bind_ok_iff.mp hneed
      obtain ⟨hlt, rfl⟩ := nextBlock_cases hnext
      obtain rfl := Except.ok.inj hneed
      refine .inr ⟨not_lt.mp hdir, h0, hlt, ?_⟩
      rw [DiskImage.load_eq, wordAt_store]
    · obtain rfl := Except.ok.inj hneed
      exact .inl ⟨not_lt.mp hdir, h0, rfl⟩

/-! ## Directories -/

/-- The words that change when entries are added to a directory with `nb` blocks whose last block has
`u` entries. -/
def OpenDir (c : Blocks) (f : FilePtr) (nb u b w : ℕ) : Prop :=
  b = f.block ∧ w = f.word + 32 ∨ OpenPointer c f nb b w ∨
    0 < nb ∧ blockOf c f (nb - 1) = some b ∧ 64 * u ≤ w

/-- The last block of a directory, with `u` entries and no other ones. -/
structure LastBlock (s : DiskImage) (lo : ℕ) (f : FilePtr) (nb u b : ℕ) : Prop where
  eq : blockOf s.disk f (nb - 1) = some b
  ge : lo ≤ b
  lt : b < s.nextbno
  ne : 10 < nb → b ≠ (wordAt s.disk f.indirect).toNat
  used : ∀ j < u, s.nameByte (FilePtr.entry b j) 0 ≠ 0
  blank : ∀ w, 64 * u ≤ w → w < 1024 → s.disk b w = 0

/-- A directory with `nb` blocks, the last of which has `u` entries; they are full before the first
block. The blocks are among those from `lo` on. -/
structure DirAt (s : DiskImage) (lo : ℕ) (f : FilePtr) (nb u : ℕ) : Prop where
  linked : Linked s.disk s.nextbno lo f nb
  lo_le : lo ≤ s.nextbno
  size : wordAt s.disk f.size = BitVec.ofNat 32 (4096 * nb)
  nb_le : nb ≤ 1024
  nb_lt : nb < s.nextbno
  used_le : u ≤ 16
  first : nb = 0 → u = 16
  last : 0 < nb → ∃ b, LastBlock s lo f nb u b

variable {nb u : ℕ}

lemma Linked.congr {c c' : Blocks} {next next' : ℕ} (h : Linked c next lo f k)
    (hind : wordAt c' f.indirect = wordAt c f.indirect) (hle : next ≤ next') :
    Linked c' next' lo f k where
  below := h.below
  noIndex hk := hind.trans (h.noIndex hk)
  index hk := by
    rw [hind]
    exact ⟨(h.index hk).1, (h.index hk).2.trans_le hle⟩

/-- The pointer to the last block is settled. -/
lemma DirAt.points (h : DirAt s lo f nb u) (hb : LastBlock s lo f nb u b) (hnb : 0 < nb) :
    PointsIn (Settled s (OpenDir s.disk f nb u)) s.disk f (nb - 1) b := by
  have hbelow := h.linked.below
  have hlo := h.lo_le
  have hge := hb.ge
  have hlast : ∀ b', blockOf s.disk f (nb - 1) = some b' → b' = b := fun b' hb' =>
    Option.some.inj (hb'.symm.trans hb.eq)
  refine ⟨hb.eq, ?_, fun h10 => ⟨by omega, ?_⟩⟩
  · rcases Nat.lt_or_ge (nb - 1) 10 with hlt | hge'
    · have hfield : (Slot.data (nb - 1)).field = .head (34 + (nb - 1)) := if_pos hlt
      rw [hfield]
      refine ⟨?_, ?_⟩
      · change f.block < s.nextbno
        omega
      · change ¬ OpenDir s.disk f nb u f.block (f.word + (34 + (nb - 1)))
        rintro (⟨-, hw⟩ | (⟨-, hw⟩ | ⟨hk, -⟩) | ⟨-, hbl, -⟩)
        · omega
        · omega
        · omega
        · have := hlast _ hbl
          omega
    · have hfield : (Slot.data (nb - 1)).field = .far (nb - 1) :=
        if_neg (by simp only [ndirect]; omega)
      obtain ⟨hi, hi'⟩ := h.linked.index (by omega)
      have hne := hb.ne (by omega)
      rw [hfield]
      refine ⟨hi', ?_⟩
      change ¬ OpenDir s.disk f nb u (wordAt s.disk f.indirect).toNat (nb - 1)
      rintro (⟨hbf, -⟩ | (⟨hbf, -⟩ | ⟨-, -, hw⟩) | ⟨-, hbl, -⟩)
      · omega
      · omega
      · omega
      · exact hne (hlast _ hbl).symm
  · rintro (⟨-, hw⟩ | (⟨-, hw⟩ | ⟨hk, hbi, -⟩) | ⟨-, hbl, -⟩)
    · omega
    · omega
    · obtain ⟨hi, -⟩ := h.linked.index hk
      omega
    · have := hlast _ hbl
      omega

/-! ## `make_link_block` -/

/-- The blocks that are handed out for one entry more. -/
def linkCost (nb u : ℕ) : ℕ := if u < 16 then 0 else 1 + indexCost nb

/-- A directory with room for an entry after the `u'` ones in its last block. -/
structure NewEntry (n : ℕ) (s : DiskImage) (lo : ℕ) (f : FilePtr) (nb u nb' u' b : ℕ)
    (s' : DiskImage) : Prop where
  next : s'.nextbno = s.nextbno + linkCost nb u
  sound : Sound n s'
  pos : 0 < nb'
  count : 16 * nb' + u' = 16 * nb + u
  room : u' < 16
  dir : DirAt s' lo f nb' u'
  last : LastBlock s' lo f nb' u' b
  evolves : Evolves s (OpenDir s.disk f nb u) s' (OpenDir s'.disk f nb' u')

/-- A new block of a directory. -/
lemma LinksBlock.newEntry (h : Sound n s) (hd : DirAt s lo f nb 16) (hnb : nb < 1024)
    (hp : LinksBlock n (s.give .file) lo f nb s.nextbno s1) :
    NewEntry n s lo f nb 16 (nb + 1) 0 s.nextbno
      (s1.store f.size (wordAt s1.disk f.size + 4096)) := by
  have hbelow := hd.linked.below
  have hlo := hd.lo_le
  have hnext := hp.next
  rw [DiskImage.give_nextbno] at hnext
  set s2 := s1.store f.size (wordAt s1.disk f.size + 4096) with hs2
  have hnext2 : s2.nextbno = s.nextbno + 1 + indexCost nb := hnext
  -- the words of `s` that are not pointers of the file stay
  have hsame : ∀ b w, b < s.nextbno + 1 → ¬ OpenPointer s.disk f nb b w → s1.disk b w = s.disk b w :=
    fun b w hb hopen => hp.evolves.same b w ⟨hb, hopen⟩
  have hsize : wordAt s1.disk f.size = wordAt s.disk f.size := by
    refine hsame _ _ (by simp only [FilePtr.size]; omega) ?_
    rintro (⟨-, hw⟩ | ⟨h10, hbi, -⟩)
    · simp only [FilePtr.size] at hw
      omega
    · have := (hd.linked.index h10).1
      simp only [FilePtr.size] at hbi
      omega
  have hind : wordAt s2.disk f.indirect = wordAt s1.disk f.indirect := by
    refine wordAt_store_of_ne fun he => ?_
    have := congrArg WordPtr.word he
    simp only [FilePtr.indirect, FilePtr.size] at this
    omega
  have hlinked : Linked s2.disk s2.nextbno lo f (nb + 1) := hp.linked.congr hind le_rfl
  have hpoints : blockOf s2.disk f nb = some s.nextbno := by
    refine (hp.points.inter (B := fun b w => ¬ (b = f.block ∧ w = f.word + 32)) ?_ ?_).rests s2.disk ?_
    · rintro - ⟨-, hw⟩
      omega
    · intro h10
      have := (hp.linked.index (by omega)).1
      exact ⟨fun he => by omega, fun he => by omega⟩
    · exact fun b w hb => store_disk_of_ne hb.1
  have hblank : ∀ w, s2.disk s.nextbno w = 0 := by
    intro w
    rw [hs2, store_disk_of_ne (by simp only [FilePtr.size]; omega), hsame _ _ (by omega),
      h.fresh _ _ le_rfl]
    rintro (⟨hbf, -⟩ | ⟨h10, hbi, -⟩)
    · omega
    · have := (hd.linked.index h10).2
      omega
  have hlast : LastBlock s2 lo f (nb + 1) 0 s.nextbno := by
    refine ⟨hpoints, hlo, by omega, fun h10 => ?_, fun j hj => absurd hj (by omega),
      fun w _ _ => hblank w⟩
    rw [hind]
    exact hp.ne_index hd.linked (Nat.lt_succ_self _) (by omega)
  have hcost : linkCost nb 16 = 1 + indexCost nb := rfl
  refine ⟨by rw [hcost]; omega, hp.sound.store (by simp only [FilePtr.size]; omega), by omega, by omega,
    by omega, ⟨hlinked, by omega, ?_, by omega, ?_, by omega, by omega, fun _ => ⟨_, hlast⟩⟩, hlast, ?_⟩
  · rw [hs2, wordAt_store, hsize, hd.size, Nat.mul_succ, BitVec.ofNat_add]
    rfl
  · have := hd.nb_lt
    omega
  · refine ⟨by omega, fun b w hs => ?_, fun b w hs => ?_⟩
    · have hb := hs.1
      rw [hs2, store_disk_of_ne fun he => hs.2 (.inl he)]
      exact hsame b w (by omega) fun ho => hs.2 (.inr (.inl ho))
    · have hb := hs.1
      have hclosed : ¬ OpenPointer s1.disk f (nb + 1) b w :=
        hp.evolves.settled b w ⟨by rw [DiskImage.give_nextbno]; omega, fun ho => hs.2 (.inr (.inl ho))⟩
      rintro (he | ho | ⟨-, hbl, -⟩)
      · exact hs.2 (.inl he)
      · unfold OpenPointer at ho
        rw [hind] at ho
        exact hclosed ho
      · rw [Nat.add_sub_cancel, hpoints, Option.some_inj] at hbl
        omega

/-- **`make_link_block`** gives the directory one block more. -/
lemma makeLinkBlock_needs (h : Sound n s) (hd : DirAt s lo f nb 16) (hn : n ≤ 0x40000)
    (hnb : s.nextbno < n → nb < 1024) :
    Needs n FormatStop.IsOutside (s.nextbno + linkCost nb 16)
      (fun r => NewEntry n s lo f nb 16 (nb + 1) 0 r.1 r.2) (makeLinkBlock n s f nb) := by
  unfold makeLinkBlock
  have hcost : linkCost nb 16 = 1 + indexCost nb := rfl
  rcases Nat.lt_or_ge s.nextbno n with hlt | hge
  · rw [nextBlock_of_lt hlt]
    simp only [ok_then]
    have hle : s.nextbno ≤ (s.give .file).nextbno := Nat.le_succ _
    have hsave := saveBlockLink_needs (h.give hlt .file) (hd.linked.congr rfl hle)
      (hd.lo_le.trans hle) hn hlt h.pos (hnb hlt)
    have htop : (s.give .file).nextbno + indexCost nb = s.nextbno + linkCost nb 16 := by
      rw [hcost, DiskImage.give_nextbno]
      omega
    refine (hsave.bind fun _ s1 hp => Needs.pure ?_).top_eq ((Nat.max_zero _).trans htop)
    exact hp.newEntry h hd (hnb hlt)
  · rw [nextBlock_of_le hge]
    exact .short (by rw [hcost]; omega) ⟨_, rfl⟩

/-! ## `create_file` -/

/-- The last block of a directory is found through its pointer. -/
lemma lastLink_eq (h : DirAt s lo f nb u) (hs : Sound n s) (hnb : 0 < nb)
    (hb : blockOf s.disk f (nb - 1) = some b) : lastLink n s f nb = .ok b := by
  obtain ⟨hfield, -, hval⟩ := blockOf_eq_some.mp hb
  unfold lastLink
  rcases Nat.lt_or_ge (nb - 1) 10 with hlt | hge
  · have hf : (Slot.data (nb - 1)).field = .head (34 + (nb - 1)) := if_pos hlt
    rw [hf] at hval
    rw [if_pos (by simp only [ndirect]; omega), DiskImage.load_eq]
    exact congrArg Except.ok hval
  · have hf : (Slot.data (nb - 1)).field = .far (nb - 1) := if_neg (by simp only [ndirect]; omega)
    obtain ⟨-, hi⟩ := h.linked.index (by omega)
    rw [hf] at hval
    rw [if_neg (by simp only [ndirect]; omega)]
    simp only [DiskImage.load_eq, diskIndex_of_lt (hi.trans_le hs.le), ok_then]
    exact congrArg Except.ok hval

lemma nameByte_of_zero (h : s.disk g.block g.word = 0) : s.nameByte g 0 = 0 := by
  rw [DiskImage.nameByte, ByteWords.get, show (4 * g.word + 0) / 4 = g.word by omega, h]
  simp

lemma findUnused_eq_some (hb : LastBlock s lo f nb u b) (hu : u < 16) : findUnused s b = some u := by
  unfold findUnused
  rw [List.find?_range'_eq_some]
  refine ⟨beq_iff_eq.mpr (nameByte_of_zero (hb.blank (64 * u) le_rfl (by omega))), ?_, ?_⟩
  · exact List.mem_range'.mpr ⟨u, hu, by omega⟩
  · intro j _ hj
    rw [Bool.not_eq_true', beq_eq_false_iff_ne]
    exact hb.used j hj

lemma findUnused_eq_none (hb : LastBlock s lo f nb 16 b) : findUnused s b = none := by
  refine List.find?_eq_none.mpr fun j hj => ?_
  obtain ⟨i, hi, rfl⟩ := List.mem_range'.mp hj
  rw [beq_iff_eq]
  exact hb.used _ (by simp only [file2blk] at hi; omega)

/-- In the last block there is room for an entry. -/
lemma createFileFrom_room (h : Sound n s) (hd : DirAt s lo f nb u) (hb : LastBlock s lo f nb u b)
    (hnb : 0 < nb) (hu : u < 16) :
    createFileFrom n s f nb nb = .ok (some (FilePtr.entry b u)) := by
  obtain ⟨k, rfl⟩ : ∃ k, nb = k + 1 := ⟨nb - 1, by omega⟩
  rw [createFileFrom, lastLink_eq hd h hnb hb.eq]
  simp only [ok_then, diskIndex_of_lt (hb.lt.trans_le h.le), findUnused_eq_some hb hu]
  rfl

/-- In the last block there is no room for an entry. -/
lemma createFileFrom_full (h : Sound n s) (hd : DirAt s lo f nb 16) (hk : k ≤ nb) :
    createFileFrom n s f nb k = .ok none := by
  induction k with
  | zero => rfl
  | succ k ih =>
    obtain ⟨b, hb⟩ := hd.last (by omega)
    rw [createFileFrom, lastLink_eq hd h (by omega) hb.eq]
    simp only [ok_then, diskIndex_of_lt (hb.lt.trans_le h.le), findUnused_eq_none hb]
    exact ih (by omega)

/-- **`create_file`** finds the first free structure of the directory, or makes a block for it. -/
theorem createFile_needs (h : Sound n s) (hd : DirAt s lo f nb u) (hn : n ≤ 0x40000)
    (hnb : u = 16 → s.nextbno < n → nb < 1024) :
    Needs n FormatStop.IsOutside (s.nextbno + linkCost nb u)
      (fun r => ∃ nb' u' b, r.1 = FilePtr.entry b u' ∧ NewEntry n s lo f nb u nb' u' b r.2)
      (createFile n s f) := by
  have hsize : (s.load f.size).toNat / 4096 = nb := by
    have := hd.nb_le
    rw [DiskImage.load_eq, hd.size, BitVec.toNat_ofNat, Nat.mod_eq_of_lt (by omega)]
    omega
  unfold createFile
  simp only [hsize]
  rcases Nat.lt_or_ge u 16 with hu | hu
  · have hpos : 0 < nb := by
      by_contra h0
      have := hd.first (by omega)
      omega
    obtain ⟨b, hb⟩ := hd.last hpos
    have hcost : linkCost nb u = 0 := if_pos hu
    rw [createFileFrom_room h hd hb hpos hu]
    exact .ok (by rw [hcost]; exact h.le) ⟨nb, u, b, rfl, by rw [hcost]; rfl, h, hpos, rfl, hu, hd, hb,
      Evolves.refl s _⟩
  · obtain rfl : u = 16 := le_antisymm hd.used_le hu
    rw [createFileFrom_full h hd le_rfl]
    simp only [ok_then]
    refine (makeLinkBlock_needs h hd hn (hnb rfl)).bind_le le_rfl fun htop r hr => ?_
    rw [diskIndex_of_lt (hr.last.lt.trans_le hr.sound.le)]
    exact .ok htop ⟨nb + 1, 0, r.1, rfl, hr⟩

end MosVolca
