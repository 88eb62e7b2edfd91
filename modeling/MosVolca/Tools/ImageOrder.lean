import MosVolca.Tools.BlockTypes
import MosVolca.Tools.HostOrder

/-!
# The image on a machine of the other byte order

The formatter on the host and the server on the machine read the words of the image in their own byte
orders. On a little-endian host the words that the server reads are those that `reverse_block` turns
round, because the recorded types of the blocks match their use. A big-endian host, which `include.mk`
provides for, turns nothing round.

## Main definitions

* `MosVolca.Found`, `MosVolca.ReadsWord` — the files and the words of 32 bits that the server reads.
* `MosVolca.ReversesFields` — what the reversal is for.

## Main results

* `MosVolca.Found.inImage` — the server finds the files of the image only.
* `MosVolca.reversal_iff` — when the server reads the values of the host.
-/

namespace MosVolca

open Endian

variable {host target : Endian} {image : ℕ → ℕ → Char8} {s : DiskImage} {cnt : FilePtr → ℕ}
  {f : FilePtr} {args : HostDir} {b i j k w : ℕ}

/-! ## The server -/

/-- The words of an image, on a machine with the byte order. -/
def wordsOf (target : Endian) (image : ℕ → ℕ → Char8) : Blocks :=
  fun b w => target.load (image b) (4 * w)

/-- The files that the server finds: the root, and the structures with a name in the blocks of
directories. -/
inductive Found (target : Endian) (image : ℕ → ℕ → Char8) : FilePtr → Prop
  | root : Found target image FilePtr.root
  | child {d : FilePtr} {b j : ℕ} (hd : Found target image d)
      (hb : DirBlock (wordsOf target image) d b) (hj : j < file2blk)
      (hname : image b (256 * j) ≠ 0) : Found target image (FilePtr.entry b j)

/-- The words of 32 bits that the server reads: two of the super block, the bitmap, the fields of the
files, and the indirect blocks of those with more than `NDIRECT` blocks. -/
inductive ReadsWord (target : Endian) (image : ℕ → ℕ → Char8) : ℕ → ℕ → Prop
  | magic : ReadsWord target image 1 0
  | nblocks : ReadsWord target image 1 1
  | bitmap {i w : ℕ} (hi : i < nblocksOf (wordsOf target image) / 32768 + 1) (hw : w < 1024) :
      ReadsWord target image (2 + i) w
  | field {f : FilePtr} {k : ℕ} (hf : Found target image f) (hk : 32 ≤ k) (hk' : k < 45) :
      ReadsWord target image f.block (f.word + k)
  | index {f : FilePtr} {i : ℕ} (hf : Found target image f)
      (hsize : ndirect * 4096 < (wordAt (wordsOf target image) f.size).toNat) (hi : i < nindirect) :
      ReadsWord target image (wordAt (wordsOf target image) f.indirect).toNat i

/-- `reverse_block` is its own inverse and changes fields of 32 bits only, and of the image for a
machine of the other order the server reads the words of the host. -/
structure ReversesFields (host : Endian) (s : DiskImage) : Prop where
  inverse : ∀ type x, reverseBlock host type (reverseBlock host type x) = x
  frame : ∀ type x i, i / 4 ∉ fieldWords type → reverseBlock host type x i = x i
  same : ∀ b w, ReadsWord host.other (HostFormat.finishFs host host.other s) b w →
    wordsOf host.other (HostFormat.finishFs host host.other s) b w = s.disk b w

/-! ## A little-endian host -/

section Little

variable (h : Typed nblock s cnt) (hz : Sized s cnt)

/-- The image for a big-endian machine. -/
lemma finishFs_little (s : DiskImage) (b : ℕ) : HostFormat.finishFs .little .big s b =
    recode .little .big (reversedWords (s.type b) (Endian.little.bytes (s.disk b)))
      (Endian.little.bytes (s.disk b)) := by
  rw [HostFormat.finishFs, if_pos (by decide), reverseBlock_eq]

/-- The words that are turned round have the values of the host. -/
lemma wordsOf_little (hw : w ∈ reversedWords (s.type b) (Endian.little.bytes (s.disk b))) :
    wordsOf .big (HostFormat.finishFs .little .big s) b w = s.disk b w := by
  rw [wordsOf, finishFs_little, load_recode hw, load_bytes]

/-- Names stay where they are. -/
lemma finishFs_name (hb : s.type b = .file) (j : ℕ) :
    HostFormat.finishFs .little .big s b (256 * j) = s.nameByte (FilePtr.entry b j) 0 := by
  have hfield : 256 * j / 4 ∉ reversedWords (s.type b) (Endian.little.bytes (s.disk b)) := by
    intro hin
    have hin := reversedWords_subset hin
    rw [hb] at hin
    simp only [fieldWords, Set.mem_ofPred_eq] at hin
    omega
  rw [finishFs_little, recode_of_notMem hfield, bytes_little, DiskImage.nameByte]
  congr 1
  simp only [FilePtr.entry]
  omega

include h in
/-- The structures before a file have names. -/
lemma Typed.namedUpTo (hf : InImage s (FilePtr.entry b j)) :
    NamedUpTo (Endian.little.bytes (s.disk b)) j := by
  obtain ⟨hb, hj, hname⟩ := inImage_entry.mp hf
  obtain ⟨u, -, hnames, hzero⟩ := h.named b hb
  have hju : j < u := by
    by_contra hle
    exact hname (nameByte_of_zero (hzero (64 * j) (by omega) (by omega)))
  intro l hl
  have hbyte : Endian.little.bytes (s.disk b) (256 * l) = s.nameByte (FilePtr.entry b l) 0 := by
    rw [bytes_little, DiskImage.nameByte]
    congr 1
    simp only [FilePtr.entry]
    omega
  rw [hbyte]
  exact hnames l (by omega)

include h in
/-- **The fields of a file** have the values of the host. -/
lemma wordsOf_field (hf : InImage s f) (hk : 32 ≤ k) (hk' : k < 45) :
    wordsOf .big (HostFormat.finishFs .little .big s) f.block (f.word + k) =
      s.disk f.block (f.word + k) := by
  refine wordsOf_little ?_
  cases hf with
  | root =>
    rw [show s.type FilePtr.root.block = .super from h.super]
    change 2 + k < 2 ∨ 34 ≤ 2 + k ∧ 2 + k < 47
    omega
  | @entry b j hb hj hname =>
    have hdiv : (64 * j + k) / 64 = j := by omega
    rw [show s.type (FilePtr.entry b j).block = .file from hb.2]
    refine ⟨⟨?_, ?_, ?_⟩, ?_⟩
    · exact hdiv.trans_lt hj
    · change 32 ≤ (64 * j + k) % 64
      omega
    · change (64 * j + k) % 64 < 45
      omega
    · change NamedUpTo _ ((64 * j + k) / 64)
      rw [hdiv]
      exact h.namedUpTo (.entry hb hj hname)

/-- The words of an indirect block have the values of the host. -/
lemma wordsOf_index (hb : IsIndex s b) (hw : w < 1024) :
    wordsOf .big (HostFormat.finishFs .little .big s) b w = s.disk b w := by
  refine wordsOf_little ?_
  rw [hb.2]
  exact hw

include h hz in
/-- The blocks of a directory, as the server reads them, have type `BLOCK_FILE`. -/
lemma isEntries_of_dirBlock (hf : InImage s f)
    (hb : DirBlock (wordsOf .big (HostFormat.finishFs .little .big s)) f b) : IsEntries s b := by
  obtain ⟨htype, i, hi, hfield, -, hval⟩ := hb
  have hdir : wordAt s.disk f.type = ftypeDir :=
    (wordsOf_field h hf (by decide : 32 ≤ 33) (by decide)).symm.trans htype
  have hsize : wordAt (wordsOf .big (HostFormat.finishFs .little .big s)) f.size =
      wordAt s.disk f.size := wordsOf_field h hf le_rfl (by decide)
  have hind : wordAt (wordsOf .big (HostFormat.finishFs .little .big s)) f.indirect =
      wordAt s.disk f.indirect := wordsOf_field h hf (by decide : 32 ≤ 44) (by decide)
  obtain ⟨hcnt, hle⟩ := (hz f hf).dir hdir
  have hlt : i < cnt f := by
    rw [sizeBlocksOf, hsize, hcnt, BitVec.toNat_ofNat] at hi
    omega
  have hpointer : pointerAt s f i =
      wordAt (wordsOf .big (HostFormat.finishFs .little .big s)) (placeOf (wordsOf .big
        (HostFormat.finishFs .little .big s)) f (Slot.data i).field) := by
    rcases Nat.lt_or_ge i 10 with hi10 | hi10
    · have hf' : (Slot.data i).field = .head (34 + i) := if_pos hi10
      rw [pointerAt_of_lt hi10, hf']
      exact (wordsOf_field h hf (by omega) (by omega)).symm
    · have hf' : (Slot.data i).field = .far i := if_neg (not_lt.mpr hi10)
      rw [pointerAt_of_le hi10, hf', placeOf, hind]
      exact (wordsOf_index ((h.file f hf).index (by omega)) (by omega)).symm
  rw [← hval, ← hpointer]
  exact (h.file f hf).entries hdir i hlt

include h hz in
/-- **The server finds the files of the image only.** -/
lemma Found.inImage (hf : Found .big (HostFormat.finishFs .little .big s) f) : InImage s f := by
  induction hf with
  | root => exact .root
  | child _ hb hj hname ih =>
    have hentries := isEntries_of_dirBlock h hz ih hb
    rw [finishFs_name hentries.2] at hname
    exact .entry hentries hj hname

include h hz in
/-- **On a little-endian host** the server reads the words of the host. -/
lemma readsWord_little (hr : ReadsWord .big (HostFormat.finishFs .little .big s) b w) :
    wordsOf .big (HostFormat.finishFs .little .big s) b w = s.disk b w := by
  have hsuper : ∀ w < 2, wordsOf .big (HostFormat.finishFs .little .big s) 1 w = s.disk 1 w :=
    fun w hw => wordsOf_little (by rw [h.super]; exact .inl hw)
  cases hr with
  | magic => exact hsuper 0 (by decide)
  | nblocks => exact hsuper 1 (by decide)
  | @bitmap i w hi hw =>
    rw [nblocksOf, hsuper 1 (by decide), h.nblocks, nblock] at hi
    obtain rfl : i = 0 := by
      have hdiv : (BitVec.ofNat 32 1024).toNat / 32768 + 1 = 1 := by decide
      omega
    refine wordsOf_little ?_
    rw [h.bmap 2 ⟨le_rfl, by decide⟩]
    exact hw
  | field hf hk hk' => exact wordsOf_field h (hf.inImage h hz) hk hk'
  | @index f i hf hsize hi =>
    have hin := hf.inImage h hz
    have hsame : wordAt (wordsOf .big (HostFormat.finishFs .little .big s)) f.size =
        wordAt s.disk f.size := wordsOf_field h hin le_rfl (by decide)
    have hind : wordAt (wordsOf .big (HostFormat.finishFs .little .big s)) f.indirect =
        wordAt s.disk f.indirect := wordsOf_field h hin (by decide : 32 ≤ 44) (by decide)
    rw [hsame, ndirect] at hsize
    have hcnt : 10 < cnt f := by
      by_cases hdir : wordAt s.disk f.type = ftypeDir
      · obtain ⟨hval, hle⟩ := (hz f hin).dir hdir
        rw [hval, BitVec.toNat_ofNat] at hsize
        omega
      · exact (hz f hin).other hdir hsize
    rw [hind]
    exact wordsOf_index ((h.file f hin).index hcnt) hi

end Little

/-! ## Both hosts -/

/-- The magic number is not the same in both directions. -/
lemma load_magic {a : ℕ → Word} (ha : a 0 = fsMagic) :
    Endian.little.load (Endian.big.bytes a) (4 * 0) ≠ fsMagic := by
  have hconst : Endian.little.load (Endian.big.bytes a) (4 * 0) =
      Endian.little.load (Endian.big.bytes fun _ => fsMagic) (4 * 0) := by
    refine load_congr fun k hk => ?_
    rw [bytes, bytes, show (4 * 0 + k) / 4 = 0 by omega, ha]
  rw [hconst]
  decide

/-- From the image of a big-endian host the server does not even read the magic number. -/
lemma eq_little_of_reversesFields (hrun : HostFormat.formatDisk host nblock args = .ok s)
    (hrev : ReversesFields host s) : host = .little := by
  cases host with
  | little => rfl
  | big =>
    have hmagic := HostFormat.formatDisk_magic hrun
    have hsame := hrev.same 1 0 .magic
    rw [hmagic, wordsOf, HostFormat.finishFs, if_pos (by decide), reverseBlock_big] at hsame
    exact absurd hsame (load_magic hmagic)

/-- **The reversal works on little-endian hosts only**: on every image if no name is written over a
pointer that is needed, and on a big-endian host on none. -/
theorem reversal_iff (hnames : args.HostNames)
    (hrun : HostFormat.formatDisk host nblock args = .ok s) :
    (ReversesFields host s → host = .little) ∧
      (host = .little → args.Clear → ReversesFields host s) := by
  refine ⟨eq_little_of_reversesFields hrun, ?_⟩
  rintro rfl hclear
  rw [HostFormat.formatDisk_little] at hrun
  obtain ⟨cnt, htyped, hsized⟩ := formatDisk_typed (by decide) (by decide) hnames hclear hrun
  exact ⟨reverseBlock_reverseBlock .little, fun _ x _ hi => reverseBlock_of_notMem .little x hi,
    fun _ _ hr => readsWord_little htyped hsized hr⟩

/-- An empty directory. -/
def emptyDirArg : HostDir := .dir [0x61] .nil .nil

lemma exists_formatDisk_emptyDirArg (host : Endian) :
    ∃ s, HostFormat.formatDisk host nblock emptyDirArg = .ok s := by
  have hok : (HostFormat.formatDisk host nblock emptyDirArg).isOk = true := by
    cases host <;> decide +kernel
  cases hrun : HostFormat.formatDisk host nblock emptyDirArg with
  | ok s => exact ⟨s, rfl⟩
  | error e =>
    rw [hrun] at hok
    cases hok

lemma hostNames_emptyDirArg : emptyDirArg.HostNames := ⟨⟨by decide, by decide⟩, trivial, trivial⟩

/-- The image of an empty directory. -/
theorem reversesFields_emptyDirArg : ∃ s, HostFormat.formatDisk .little nblock emptyDirArg = .ok s ∧
    ReversesFields .little s := by
  obtain ⟨s, hrun⟩ := exists_formatDisk_emptyDirArg .little
  exact ⟨s, hrun, (reversal_iff hostNames_emptyDirArg hrun).2 rfl ⟨trivial, trivial⟩⟩

/-- An empty directory on a big-endian host. -/
theorem not_reversesFields : ¬ ∀ (host : Endian) (args : HostDir) (s : DiskImage), args.HostNames →
    HostFormat.formatDisk host nblock args = .ok s → ReversesFields host s := by
  intro h
  obtain ⟨s, hrun⟩ := exists_formatDisk_emptyDirArg .big
  have hlittle := eq_little_of_reversesFields hrun (h .big emptyDirArg s hostNames_emptyDirArg hrun)
  cases hlittle

end MosVolca
