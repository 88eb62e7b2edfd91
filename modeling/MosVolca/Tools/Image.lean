import MosVolca.Tools.Entries

/-!
# The image and the server

The whole program: the disk that `init_disk` sets up, the entries, and the bitmap that `flush_bitmap`
writes over the blocks that were handed out.

## Main definitions

* `MosVolca.HoldsTree` — all of the arguments are in the image.
* `MosVolca.IsReserved` — the bitmap blocks of `init_disk`.

## Main results

* `MosVolca.formatDisk_needs` — what the program needs, and what it leaves.
-/

namespace MosVolca

open Bounded Footprint DiskImage

variable {n : ℕ} {s s1 s' : DiskImage} {c c' : Blocks} {b i k w : ℕ} {args : HostDir}

/-! ## `init_disk` -/

/-- The bitmap blocks that `init_disk` sets up. -/
def IsReserved (n b : ℕ) : Prop := 2 ≤ b ∧ b < 2 + nbitblock n

/-- The words of the super block that are not open. -/
structure IsSuper (n : ℕ) (c : Blocks) : Prop where
  magic : c 1 0 = fsMagic
  nblocks : c 1 1 = BitVec.ofNat 32 n
  type : wordAt c FilePtr.root.type = ftypeDir

/-- The disk before there are entries in it. -/
structure IsFresh (n : ℕ) (s : DiskImage) : Prop where
  next : s.nextbno = 2 + nbitblock n
  sound : Sound n s
  super : IsSuper n s.disk
  dir : DirAt s (2 + nbitblock n) FilePtr.root (blocksFor 0) (usedFor 0)

lemma nbitblock_le (hn : 4 ≤ n) : 1 ≤ nbitblock n ∧ 2 + nbitblock n ≤ n := by
  unfold nbitblock
  omega

/-- `init_disk` writes the super block and the bitmap, and nothing else. -/
lemma initDisk_fresh (hn : 4 ≤ n) : ∃ s, initDisk n = .ok s ∧ IsFresh n s := by
  obtain ⟨hpos, hle⟩ := nbitblock_le hn
  have hrun : ∃ s0 : DiskImage, s0.nextbno = 2 + nbitblock n ∧
      (∀ i w, i = 1 ∨ 2 + nbitblock n ≤ i → s0.disk i w = 0) ∧
      initDisk n = .ok ((((s0.store ⟨1, 0⟩ fsMagic).store ⟨1, 1⟩ (BitVec.ofNat 32 n)).store
        FilePtr.root.type ftypeDir).strcpy FilePtr.root [slash]) := by
    have hones : ∀ i w, i = 1 ∨ 2 + nbitblock n ≤ i → onesInBitmap n i w = 0 :=
      fun i w hi => if_neg (by omega)
    unfold initDisk
    rw [diskIndex_of_lt (by omega)]
    simp only [ok_then]
    split_ifs with hdiv
    · refine ⟨_, rfl, fun i w hi => ?_, rfl⟩
      rw [storeBytes_disk_of_ne (by omega)]
      exact hones i w hi
    · exact ⟨_, rfl, hones, rfl⟩
  obtain ⟨s0, hnext, hzero, hrun⟩ := hrun
  refine ⟨_, hrun, ?_⟩
  obtain ⟨s1, hs1⟩ : ∃ s1, (((s0.store ⟨1, 0⟩ fsMagic).store ⟨1, 1⟩ (BitVec.ofNat 32 n)).store
    FilePtr.root.type ftypeDir).strcpy FilePtr.root [slash] = s1 := ⟨_, rfl⟩
  rw [hs1]
  have hnext1 : s1.nextbno = 2 + nbitblock n := by
    rw [← hs1]
    exact hnext
  have hword : ∀ i w, ¬ (i = 1 ∧ w = 2) → s1.disk i w =
      (((s0.store ⟨1, 0⟩ fsMagic).store ⟨1, 1⟩ (BitVec.ofNat 32 n)).store
        FilePtr.root.type ftypeDir).disk i w := by
    intro i w hi
    rw [← hs1]
    refine storeBytes_disk_of_disjoint ?_
    simp only [FilePtr.root, List.length_append, List.length_cons, List.length_nil]
    omega
  have hold : ∀ i w, i = 1 ∨ 2 + nbitblock n ≤ i → ¬ (i = 1 ∧ (w ≤ 2 ∨ w = 35)) →
      s1.disk i w = 0 := by
    intro i w hi hne
    rw [hword i w (by omega), store_disk_of_ne (by simp only [FilePtr.root, FilePtr.type]; omega),
      store_disk_of_ne (by simp only; omega), store_disk_of_ne (by simp only; omega), hzero i w hi]
  refine ⟨hnext1, ⟨by omega, by omega, fun i w hi => ?_⟩, ⟨?_, ?_, ?_⟩, ⟨⟨?_, fun _ => ?_, ?_⟩,
    hnext1.ge, ?_, by decide, ?_, by decide, fun _ => rfl, fun h0 => absurd h0 (by decide)⟩⟩
  · exact hold i w (.inr (by omega)) (by omega)
  · rw [hword 1 0 (by decide)]
    rfl
  · rw [hword 1 1 (by decide)]
    rfl
  · exact (hword 1 35 (by decide)).trans (wordAt_store _ _ _)
  · change 1 < 2 + nbitblock n
    omega
  · exact hold 1 46 (.inl rfl) (by omega)
  · exact fun h10 => absurd h10 (by decide)
  · exact hold 1 34 (.inl rfl) (by omega)
  · rw [hnext1]
    exact Nat.lt_of_lt_of_le (by decide) (Nat.le_add_right 2 _)

/-! ## `flush_bitmap` -/

/-- The bit of a block is cleared in the bitmap. -/
def IsMarked (c : Blocks) (b : ℕ) : Prop := Bitmap.test (bitsOf c) b = false

/-- What the rounds of `flush_bitmap` below `k` do. -/
structure Flushes (n k : ℕ) (c c' : Blocks) : Prop where
  same : ∀ b w, ¬ IsReserved n b → c' b w = c b w
  marked : ∀ b < k, IsMarked c' b

/-- One round. -/
lemma flushBit_spec (hn : 4 ≤ n) (hi : i < n) : ∃ c', flushBit n c i = .ok c' ∧
    (∀ b w, ¬ IsReserved n b → c' b w = c b w) ∧
    ∀ b, Bitmap.test (bitsOf c') b = (Bitmap.test (bitsOf c) b && decide (b ≠ i)) := by
  have hres : IsReserved n (2 + i / 32768) := by
    unfold IsReserved nbitblock
    omega
  unfold flushBit
  rw [diskIndex_of_lt (by omega)]
  refine ⟨_, rfl, fun b w hb => ?_, fun b => ?_⟩
  · refine TwoLevel.write_of_ne (.inl fun he => hb ?_)
    exact he ▸ hres
  · rw [← Bitmap.test_clear (by decide)]
    congr 1
    funext k
    unfold bitsOf Bitmap.clear
    by_cases hk : k = i / 32
    · subst hk
      have hdiv : i / 32 / 1024 = i / 32768 := by omega
      have hmod : i / 32 % 1024 = i % 32768 / 32 := by omega
      rw [Function.update_self]
      simp only [hdiv, hmod]
      exact wordAt_putWord_self c ⟨2 + i / 32768, i % 32768 / 32⟩ _
    · rw [Function.update_of_ne hk]
      exact TwoLevel.write_of_ne (by simp only; omega)

/-- **The loop of `flush_bitmap`.** -/
lemma flushBits_spec (hn : 4 ≤ n) (hk : k ≤ n) :
    ∃ c', (List.range' 0 k).foldlM (flushBit n) c = .ok c' ∧ Flushes n k c c' := by
  induction k with
  | zero => exact ⟨c, rfl, fun _ _ _ => rfl, fun b hb => absurd hb (Nat.not_lt_zero b)⟩
  | succ k ih =>
    obtain ⟨c1, hrun, hsame, hmarked⟩ := ih (by omega)
    obtain ⟨c2, hstep, hsame2, htest⟩ := flushBit_spec (c := c1) hn (by omega : k < n)
    refine ⟨c2, ?_, fun b w hb => (hsame2 b w hb).trans (hsame b w hb), fun b hb => ?_⟩
    · rw [List.range'_1_concat, List.foldlM_append, hrun, ok_then, Nat.zero_add, List.foldlM_cons,
        hstep]
      rfl
    · unfold IsMarked
      rw [htest]
      rcases Nat.lt_or_ge b k with hlt | hge
      · rw [show Bitmap.test (bitsOf c1) b = false from hmarked b hlt, Bool.false_and]
      · rw [decide_eq_false (by omega), Bool.and_false]

/-! ## The program -/

/-- All of the arguments are in the image. -/
def HoldsTree (c : Blocks) (args : HostDir) : Prop :=
  wordAt c FilePtr.root.type = ftypeDir ∧
    wordAt c FilePtr.root.size = BitVec.ofNat 32 (4096 * blocksFor args.count) ∧
    Contains c FilePtr.root 0 args

/-- The disk that the program leaves. -/
structure IsImage (n : ℕ) (args : HostDir) (s : DiskImage) : Prop where
  super : IsSuper n s.disk
  marked : ∀ b < s.nextbno, IsMarked s.disk b
  next : s.nextbno = 2 + nbitblock n + args.blocks 0
  holds : args.Short → HoldsTree s.disk args

/-- Of the first blocks, the entries change the size and the pointers of the root only. -/
lemma Writes.root_same {lo b w : ℕ} {s0 s1 : DiskImage} (h : Writes n s0 lo FilePtr.root 0 args s1)
    (hb : b < s0.nextbno) (hw : b = 1 → w < 34 ∨ w = 35 ∨ 46 < w) : s1.disk b w = s0.disk b w := by
  refine h.evolves.same b w ⟨hb, ?_⟩
  rintro (⟨hb1, h⟩ | (⟨hb1, h⟩ | ⟨h10, -⟩) | ⟨h0, -⟩)
  · simp only [FilePtr.root] at hb1 h
    omega
  · simp only [FilePtr.root] at hb1 h
    omega
  · exact absurd h10 (by decide)
  · exact absurd h0 (by decide)

/-- **The program**, if there is an argument. -/
theorem formatDisk_needs (hn : 4 ≤ n) (hmax : n ≤ 0x40000) (hargs : args ≠ .nil) (hhost : args.OnHost)
    (hmild : args.Mild) (hw : n ≤ 1024 ∨ args.count ≤ 16384 ∧ args.Narrow) :
    Needs n FormatStop.IsOutside (2 + nbitblock n + args.reach 0) (IsImage n args)
      (formatDisk n args) := by
  obtain ⟨s0, hinit, hfresh⟩ := initDisk_fresh hn
  have hrun : formatDisk n args =
      (writeEntries n s0 FilePtr.root args >>= fun s => flushBitmap n s) := by
    unfold formatDisk
    rw [hinit, ok_then]
    cases args with
    | nil => exact absurd rfl hargs
    | file name data rest => rfl
    | link name target rest => rfl
    | dir name children rest => rfl
  rw [hrun]
  have hwrites := writeEntries_needs hmax hfresh.sound hfresh.dir hhost hmild
    (hw.imp_right fun hw => by rwa [Nat.zero_add])
  rw [hfresh.next] at hwrites
  refine hwrites.bind_le le_rfl fun htop s1 hs1 => ?_
  obtain ⟨c', hflush, hsame, hmarked⟩ := flushBits_spec (c := s1.disk) hn hs1.sound.le
  unfold flushBitmap
  rw [hflush]
  have hnext := hs1.next
  rw [hfresh.next] at hnext
  have hres1 : ¬ IsReserved n 1 := fun h => absurd h.1 (by decide)
  -- the words of the super block are not open
  have hkeep : ∀ w, w < 2 ∨ w = 35 → c' 1 w = s0.disk 1 w := by
    intro w hw
    rw [hsame 1 w hres1]
    exact hs1.root_same (by rw [hfresh.next]; omega) fun _ => by omega
  refine .ok htop ⟨⟨?_, ?_, ?_⟩, hmarked, hnext, fun hshort => ⟨?_, ?_, ?_⟩⟩
  · exact (hkeep 0 (by omega)).trans hfresh.super.magic
  · exact (hkeep 1 (by omega)).trans hfresh.super.nblocks
  · exact (hkeep 35 (by omega)).trans hfresh.super.type
  · exact (hkeep 35 (by omega)).trans hfresh.super.type
  · have hsize := hs1.dir.size
    rw [Nat.zero_add] at hsize
    exact (hsame 1 34 hres1).trans hsize
  · refine hs1.rests hshort c' fun b w hb => hsame b w fun hr => ?_
    rcases hb.1 with hge | ⟨hb1, -⟩
    · exact absurd hr.2 (by omega)
    · exact absurd hr.1 (by rw [hb1]; decide)

/-- The image is written block by block. -/
lemma forM_diskIndex {l : List ℕ} (h : ∀ i ∈ l, i < n) : l.forM (diskIndex n) = .ok () := by
  induction l with
  | nil => rfl
  | cons i l ih =>
    rw [List.forM, diskIndex_of_lt (h i List.mem_cons_self), ok_then]
    exact ih fun j hj => h j (List.mem_cons_of_mem i hj)

lemma finishFs_eq (s : DiskImage) : finishFs nblock s = .ok s.disk := by
  have hblocks : (List.range' 0 1024).forM (diskIndex nblock) = .ok () := by
    refine forM_diskIndex fun i hi => ?_
    obtain ⟨j, hj, rfl⟩ := List.mem_range'.mp hi
    simp only [nblock]
    omega
  unfold finishFs
  rw [diskIndex_of_lt (by decide), ok_then, hblocks, ok_then]
  rfl

/-- The program stays inside of `disk`: the image holds all of the arguments, or there is none. -/
def FormatsSafely (args : HostDir) : Prop :=
  match fsformat args with
  | .ok image => HoldsTree image args
  | .error (.outside _) => False
  | .error _ => True

/-- An image that holds the names has room for them. -/
lemma Contains.short {f : FilePtr} {e : ℕ} {d : HostDir} (h : Contains c f e d) : d.Short := by
  induction d generalizing f e with
  | nil => trivial
  | file name data rest ih =>
    obtain ⟨⟨_, -, hname, -⟩, hrest⟩ := h
    exact ⟨hname.short, ih hrest⟩
  | link name target rest ih =>
    obtain ⟨⟨_, -, hname, -⟩, hrest⟩ := h
    exact ⟨hname.short, ih hrest⟩
  | dir name children rest ihc ihr =>
    obtain ⟨⟨_, -, hname, -, hchildren⟩, hrest⟩ := h
    exact ⟨hname.short, ihc hchildren, ihr hrest⟩

/-- Without arguments the program stops. -/
lemma fsformat_nil : fsformat .nil = .error .exit := by
  obtain ⟨s, hinit, -⟩ := initDisk_fresh (n := nblock) (by decide)
  unfold fsformat formatDisk
  rw [hinit]
  rfl

/-- **What the program needs**: three blocks and those that the entries use. -/
lemma formatsSafely_of_mild (hhost : args.OnHost) (hmild : args.Mild) :
    FormatsSafely args ↔ args.Short ∧ 3 + args.reach 0 ≤ nblock := by
  by_cases hargs : args = .nil
  · subst hargs
    unfold FormatsSafely
    rw [fsformat_nil]
    exact iff_of_true trivial ⟨trivial, by decide⟩
  · have hneeds := formatDisk_needs (n := nblock) (by decide) (by decide) hargs hhost hmild
      (.inl le_rfl)
    rw [show 2 + nbitblock nblock = 3 by decide] at hneeds
    unfold FormatsSafely fsformat
    rcases Nat.lt_or_ge nblock (3 + args.reach 0) with hlt | hle
    · obtain ⟨e, hrun, j, rfl⟩ := hneeds.exists_error hlt
      rw [hrun]
      exact iff_of_false (fun h => h) fun h => absurd h.2 (by omega)
    · obtain ⟨s, hrun, himage⟩ := hneeds.exists_ok hle
      rw [hrun, ok_then, finishFs_eq]
      exact ⟨fun h => ⟨h.2.2.short, hle⟩, fun h => himage.holds h.1⟩

/-- **The formatter stays inside of the disk** if the names fit into their structures and the blocks
into the disk, and otherwise it does not. -/
theorem formatsSafely_iff (args : HostDir) (hhost : args.OnHost) :
    (args.Short ∧ 3 + args.reach 0 ≤ nblock → FormatsSafely args) ∧
      (args.Mild → FormatsSafely args → args.Short ∧ 3 + args.reach 0 ≤ nblock) :=
  ⟨fun h => (formatsSafely_of_mild hhost h.1.mild).mpr h,
    fun hmild => (formatsSafely_of_mild hhost hmild).mp⟩

/-- A file of 1023 blocks does not fit, but the program does not say so. -/
lemma not_formatsSafely_of_length {data : List Char8} (hdata : data.length = 1023 * 4096) :
    HostDir.OnHost (.file [0x61] data .nil) ∧ ¬ FormatsSafely (.file [0x61] data .nil) := by
  have hhost : HostDir.OnHost (.file [0x61] data .nil) := by
    refine ⟨by decide, ?_, trivial⟩
    rw [hdata]
    decide
  refine ⟨hhost, fun hsafe => ?_⟩
  have hfits := ((formatsSafely_of_mild hhost ⟨by decide, trivial⟩).mp hsafe).2
  simp only [HostDir.reach, HostDir.fileCost, hdata] at hfits
  exact absurd hfits (by decide)

/-- A file that the formatter writes beyond the disk. -/
theorem not_formatsSafely : ¬ ∀ args : HostDir, args.OnHost → FormatsSafely args := by
  intro h
  obtain ⟨hhost, hnot⟩ := not_formatsSafely_of_length
    (List.length_replicate (n := 1023 * 4096) (a := 0x61))
  exact hnot (h _ hhost)

/-- A file `a`, a link to it, and a directory with one more file. -/
def smallTree : HostDir :=
  .file [0x61] [0x68, 0x69, 0x21] (.link [0x6c] [0x61] (.dir [0x64] (.file [0x62] [0x68] .nil) .nil))

lemma smallTree_onHost : smallTree.OnHost :=
  ⟨by decide, by decide, by decide, by decide, by decide, ⟨by decide, by decide, trivial⟩, trivial⟩

lemma smallTree_short : smallTree.Short :=
  ⟨by decide, by decide, by decide, ⟨by decide, trivial⟩, trivial⟩

/-- For a file, a link to it and a directory with a file. -/
theorem formatsSafely_smallTree : FormatsSafely smallTree :=
  (formatsSafely_iff smallTree smallTree_onHost).1 ⟨smallTree_short, by decide⟩

end MosVolca
