import MosVolca.Fs.BlockBits
import MosVolca.Tools.Image

/-!
# The bitmap blocks of the formatter and of the server

The server reads the super block and the bitmap of the image. Its number of bitmap blocks is not
computed as in the formatter: `nbitmap` adds one where `nbitblock` rounds up.

## Main definitions

* `MosVolca.BitmapAgrees` — the server accepts the image and has the bitmap blocks of the formatter.
* `MosVolca.FitsInto` — the arguments fit into a disk.

## Main results

* `MosVolca.readSuper_accepts`, `MosVolca.readBitmap_accepts` — the assertions of the server.
* `MosVolca.bitmapAgrees_iff` — when formatter and server agree.
-/

namespace MosVolca

open Bounded Footprint

variable {n : ℕ} {disk : Blocks} {t t' : BlockCache} {b k : ℕ} {args : HostDir}

/-- The server has enough memory and has not read the bitmap. -/
structure Starts (disk : Blocks) (t : BlockCache) : Prop where
  content : t.content = disk
  grants : ∀ k, t.grants k = true
  bitmap : t.bitmap = false

lemma starts_off (disk : Blocks) : Starts disk (BlockCache.off disk fun _ => true) :=
  ⟨rfl, fun _ => rfl, rfl⟩

/-- A block can be read. -/
lemma Starts.readBlock (h : Starts disk t) (hsuper : t.super = true → b < t.nblocks)
    (hb : b < 0x40000) :
    ∃ isnew t', MosVolca.readBlock t b = .ok (isnew, t') ∧ Starts disk t' ∧ Loads t t' ∧
      t'.mapped b = true := by
  have hrun : ∃ isnew t', MosVolca.readBlock t b = .ok (isnew, t') ∧ ∀ k, t'.grants k = true := by
    unfold MosVolca.readBlock diskaddr
    rw [if_neg fun hs => absurd (hsuper hs.1) (not_lt.mpr hs.2), if_neg (by simp [h.bitmap]),
      if_neg (by omega)]
    cases hm : t.mapped b with
    | true =>
      refine ⟨false, t, ?_, h.grants⟩
      simp only [pure_bind, hm, if_true]
      rfl
    | false =>
      obtain ⟨s1, hs1, hm1, hg1⟩ : ∃ s1, allocPage t b = (0, s1) ∧ s1.mapped b = true ∧
          ∀ k, s1.grants k = true := by
        refine ⟨_, if_pos (h.grants 0), ?_, fun k => h.grants (k + 1)⟩
        exact Function.update_self b true t.mapped
      refine ⟨true, ideRead s1 b, ?_, hg1⟩
      simp only [pure_bind, hm, hs1, touchBlock, hm1, if_true, if_false, Bool.false_eq_true]
      rfl
  obtain ⟨isnew, t', hrun, hgrants⟩ := hrun
  obtain ⟨hl, hm⟩ := readBlock_loads hrun
  exact ⟨isnew, t', hrun, ⟨hl.content.trans h.content, hgrants, hl.bitmap.trans h.bitmap⟩, hl, hm⟩

/-- The number of blocks that the server sees. -/
lemma Starts.nblocks (h : Starts disk t) (hm : t.mapped 1 = true) : t.nblocks = (disk 1 1).toNat := by
  rw [BlockCache.nblocks, ← content_of_mapped hm, h.content]

/-- **`read_super`** accepts the super block. -/
lemma readSuper_accepts (hsuper : IsSuper n disk) (hn : n ≤ 0x40000) :
    ∃ t, readSuper (BlockCache.off disk fun _ => true) = .ok t ∧ Starts disk t ∧ t.super = true ∧
      t.mapped 1 = true ∧ t.nblocks = n := by
  obtain ⟨isnew, t, hrun, hstart, -, hm⟩ :=
    (starts_off disk).readBlock (b := 1) (fun h => Bool.noConfusion h) (by decide)
  have hnat : (disk 1 1).toNat = n := by
    rw [hsuper.nblocks, BitVec.toNat_ofNat, Nat.mod_eq_of_lt (by omega)]
  have hmagic : t.mem 1 0 = fsMagic := by
    rw [← content_of_mapped hm, hstart.content, hsuper.magic]
  have hblocks : t.nblocks = n := (hstart.nblocks hm).trans hnat
  refine ⟨{ t with super := true }, ?_, ⟨hstart.content, hstart.grants, hstart.bitmap⟩, rfl, hm,
    hblocks⟩
  unfold readSuper
  rw [hrun]
  have hlarge : ¬ ({ t with super := true } : BlockCache).nblocks > 0x40000 := by
    change ¬ t.nblocks > 0x40000
    omega
  change (if t.mem 1 0 ≠ fsMagic then _ else _) = _
  rw [if_neg (not_not.mpr hmagic), if_neg hlarge]
  rfl

/-- A loop that reads blocks. -/
lemma foldlM_readBlock {f : BlockCache → ℕ → Kernel BlockCache} {l : List ℕ}
    (hf : ∀ t i isnew t', MosVolca.readBlock t (i + 2) = .ok (isnew, t') → f t i = .ok t')
    (h : Starts disk t) (hm : t.mapped 1 = true) (hl : ∀ i ∈ l, i + 2 < t.nblocks)
    (hn : t.nblocks ≤ 0x40000) : ∃ t', l.foldlM f t = .ok t' ∧ Starts disk t' := by
  induction l generalizing t with
  | nil => exact ⟨t, rfl, h⟩
  | cons i l ih =>
    have hi := hl i List.mem_cons_self
    obtain ⟨isnew, t1, hrun, hstart, hloads, -⟩ := h.readBlock (b := i + 2) (fun _ => hi) (by omega)
    have hm1 := hloads.mapped 1 hm
    have hblocks : t1.nblocks = t.nblocks := (hstart.nblocks hm1).trans (h.nblocks hm).symm
    obtain ⟨t', hrest, hstart'⟩ := ih hstart hm1
      (fun j hj => hblocks ▸ hl j (List.mem_cons_of_mem i hj)) (hblocks ▸ hn)
    refine ⟨t', ?_, hstart'⟩
    rw [List.foldlM_cons, hf t i isnew t1 hrun]
    exact hrest

/-- The assertions of `read_bitmap`. -/
lemma foldlM_userAssert {l : List ℕ} (h : ∀ i ∈ l, blockIsFree t (i + 2) = false) :
    l.foldlM (fun s i => userAssert (!blockIsFree s (i + 2)) s) t = .ok t := by
  induction l with
  | nil => rfl
  | cons i l ih =>
    rw [List.foldlM_cons, h i List.mem_cons_self]
    exact ih fun j hj => h j (List.mem_cons_of_mem i hj)

/-- **`read_bitmap`** accepts a bitmap in which its blocks and the ones before are used. -/
lemma readBitmap_accepts (h : Starts disk t) (hsuper : t.super = true) (hm : t.mapped 1 = true)
    (hblocks : t.nblocks = n) (hn : 4 ≤ n) (hmax : n ≤ 0x40000)
    (hmarked : ∀ b < n / 32768 + 3, IsMarked disk b) : ∃ t', readBitmap t = .ok t' := by
  have hcount : t.nbitmap = n / 32768 + 1 := by rw [BlockCache.nbitmap, hblocks]
  unfold readBitmap
  simp only
  obtain ⟨t1, hrun, hstart⟩ := foldlM_readBlock (l := List.range' 0 t.nbitmap)
    (f := fun s i => MosVolca.readBlock s (i + 2) >>= fun r => pure r.2)
    (fun s i isnew s' hr => by rw [hr]; rfl) h hm
    (fun i hi => by
      obtain ⟨j, hj, rfl⟩ := List.mem_range'.mp hi
      omega) (by omega)
  obtain ⟨hloads, hmaps⟩ := foldlM_loadsAll (fun s s' i hstep => by
    obtain ⟨r, hr, hstep⟩ := bind_eq_ok.mp hstep
    obtain rfl := Except.ok.inj hstep
    exact readBlock_loads hr) hrun
  have hblocks1 : t1.nblocks = n :=
    ((hstart.nblocks (hloads.mapped 1 hm)).trans (h.nblocks hm).symm).trans hblocks
  have hused : ∀ b < n / 32768 + 3, blockIsFree { t1 with bitmap := true } b = false := by
    intro b hb
    refine (blockIsFree_eq (s := { t1 with bitmap := true }) (hloads.super.trans hsuper) ?_).trans
      (Eq.trans ?_ (hmarked b hb))
    · change b < t1.nblocks
      omega
    have hmap : t1.mapped (2 + b / 32 / 1024) = true := by
      have := hmaps (b / 32768) (List.mem_range'.mpr ⟨b / 32768, by omega, by omega⟩)
      rwa [show b / 32768 + 2 = 2 + b / 32 / 1024 by omega] at this
    unfold Bitmap.test
    congr 1
    change t1.mem (2 + b / 32 / 1024) (b / 32 % 1024) = disk (2 + b / 32 / 1024) (b / 32 % 1024)
    rw [← content_of_mapped hmap, hstart.content]
  refine ⟨{ t1 with bitmap := true }, ?_⟩
  change ((List.range' 0 t.nbitmap).foldlM
    (fun s i => MosVolca.readBlock s (i + 2) >>= fun r => pure r.2) t >>= fun s => _) = _
  rw [hrun]
  change (do
    let s ← userAssert (!blockIsFree { t1 with bitmap := true } 0) { t1 with bitmap := true }
    let s ← userAssert (!blockIsFree s 1) s
    (List.range' 0 t.nbitmap).foldlM (fun s i => userAssert (!blockIsFree s (i + 2)) s) s) = _
  rw [hused 0 (by omega)]
  change (do
    let s ← userAssert (!blockIsFree { t1 with bitmap := true } 1) { t1 with bitmap := true }
    (List.range' 0 t.nbitmap).foldlM (fun s i => userAssert (!blockIsFree s (i + 2)) s) s) = _
  rw [hused 1 (by omega)]
  refine foldlM_userAssert fun i hi => ?_
  obtain ⟨j, hj, rfl⟩ := List.mem_range'.mp hi
  exact hused _ (by omega)

/-! ## The number of bitmap blocks -/

/-- The image of a disk with `n` blocks passes the assertions of the server, and the bitmap blocks of
the server are the ones that the formatter set up. -/
def BitmapAgrees (n : ℕ) (disk : Blocks) : Prop :=
  ∃ t t', readSuper (BlockCache.off disk fun _ => true) = .ok t ∧ readBitmap t = .ok t' ∧
    ∀ b, 2 ≤ b ∧ b < 2 + t.nbitmap ↔ IsReserved n b

/-- The arguments fit into a disk with `n` blocks. -/
structure FitsInto (n : ℕ) (args : HostDir) : Prop where
  some : args ≠ .nil
  onHost : args.OnHost
  mild : args.Mild
  entries : args.count ≤ 16384
  narrow : args.Narrow
  blocks : 2 + nbitblock n + args.reach 0 ≤ n

/-- The two formulas differ where the bitmap fills its blocks. -/
lemma nbitblock_eq_iff (hn : 4 ≤ n) : n / 32768 + 1 = nbitblock n ↔ ¬ 32768 ∣ n := by
  rw [Nat.dvd_iff_mod_eq_zero]
  unfold nbitblock
  omega

/-- The server takes one bitmap block too many exactly if the bitmap fills its blocks. -/
lemma IsImage.agrees_iff {s : DiskImage} (h : IsImage n args s) (hn : 4 ≤ n)
    (hmax : n ≤ 0x40000) : BitmapAgrees n s.disk ↔ ¬ 32768 ∣ n := by
  obtain ⟨t, hrun, hstart, hsuper, hm, hblocks⟩ := readSuper_accepts h.super hmax
  have hcount : t.nbitmap = n / 32768 + 1 := by rw [BlockCache.nbitmap, hblocks]
  rw [← nbitblock_eq_iff hn]
  constructor
  · rintro ⟨t1, t', hrun1, -, hall⟩
    obtain rfl := Except.ok.inj (hrun.symm.trans hrun1)
    have hpos := (nbitblock_le hn).1
    unfold IsReserved at hall
    have hlast := hall (1 + t.nbitmap)
    have hlast' := hall (1 + nbitblock n)
    omega
  · intro heq
    obtain ⟨t', hbitmap⟩ := readBitmap_accepts hstart hsuper hm hblocks hn hmax fun b hb =>
      h.marked b (by rw [h.next]; omega)
    refine ⟨t, t', hrun, hbitmap, fun b => ?_⟩
    rw [hcount, heq]
    rfl

lemma FitsInto.image (h : FitsInto n args) (hn : 4 ≤ n) (hmax : n ≤ 0x40000) :
    ∃ s, formatDisk n args = .ok s ∧ IsImage n args s :=
  (formatDisk_needs hn hmax h.some h.onHost h.mild (.inr ⟨h.entries, h.narrow⟩)).exists_ok h.blocks

/-- **The formatter and the server agree on the bitmap blocks** unless the bits of the blocks fill
them exactly. -/
theorem bitmapAgrees_iff (n : ℕ) (args : HostDir) (hn : 4 ≤ n) (hmax : n ≤ 0x40000)
    (hfits : FitsInto n args) :
    ∃ s, formatDisk n args = .ok s ∧ (BitmapAgrees n s.disk ↔ ¬ 32768 ∣ n) := by
  obtain ⟨s, hrun, himage⟩ := hfits.image hn hmax
  exact ⟨s, hrun, himage.agrees_iff hn hmax⟩

/-- The small tree needs six blocks. -/
lemma smallTree_fits (hn : 2 + nbitblock n + 6 ≤ n) : FitsInto n smallTree :=
  ⟨nofun, smallTree_onHost, smallTree_short.mild, by decide, ⟨by decide, trivial, trivial⟩, hn⟩

/-- For a disk of the default size with a file, a link and a directory. -/
theorem bitmapAgrees_iff_nblock : ∃ s, formatDisk nblock smallTree = .ok s ∧
    (BitmapAgrees nblock s.disk ↔ ¬ 32768 ∣ nblock) :=
  bitmapAgrees_iff nblock smallTree (by decide) (by decide) (smallTree_fits (by decide))

/-- On a disk of 32768 blocks the server takes the first block of a directory for the bitmap. -/
theorem not_bitmapAgrees : ¬ ∀ n args, 4 ≤ n → n ≤ 0x40000 → FitsInto n args →
    ∃ s, formatDisk n args = .ok s ∧ BitmapAgrees n s.disk := by
  intro h
  have hfits : FitsInto 32768 smallTree := smallTree_fits (by decide)
  obtain ⟨s, hrun, hagrees⟩ := h 32768 smallTree (by decide) (by decide) hfits
  obtain ⟨s', hrun', himage⟩ := hfits.image (by decide) (by decide)
  obtain rfl := Except.ok.inj (hrun.symm.trans hrun')
  exact (himage.agrees_iff (by decide) (by decide)).mp hagrees (dvd_refl 32768)

end MosVolca
