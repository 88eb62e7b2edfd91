import MosVolca.Tools.Image
import MosVolca.Tools.Reverse

/-!
# The formatter on hosts of both byte orders

A host has its words in its own byte order, and strings and the bytes of files are where they are. So
the functions that write bytes into `disk` depend on the byte order, and those that work on words do
not. `include.mk` sets `CONFIG_REVERSE_ENDIAN` if the host and the machine have different orders.

## Main definitions

* `MosVolca.HostFormat.formatDisk`, `MosVolca.HostFormat.finishFs` — the program on a host.

## Main results

* `MosVolca.HostFormat.formatDisk_little` — on a little-endian host it is the program on words.
* `MosVolca.HostFormat.formatDisk_magic` — on every host `s_magic` is `FS_MAGIC`.
-/

namespace MosVolca

namespace HostFormat

open Bounded DiskImage

variable (host : Endian) (n : ℕ)

/-! ## The functions that depend on the order -/

/-- `f->f_name[k]`. -/
def nameByte (s : DiskImage) (f : FilePtr) (k : ℕ) : Char8 :=
  host.bytes (s.disk f.block) (4 * f.word + k)

/-- The bytes from byte `k` of block `b` on are written. -/
def storeBytes (s : DiskImage) (b k : ℕ) (bytes : List Char8) : DiskImage :=
  { s with disk := Function.update s.disk b (host.put (s.disk b) k bytes) }

/-- `strcpy(f->f_name, name)`. -/
def strcpy (s : DiskImage) (f : FilePtr) (name : List Char8) : DiskImage :=
  storeBytes host s f.block (4 * f.word) (name ++ [0])

/-- `strncpy(f->f_name, name, m)`. -/
def strncpy (s : DiskImage) (f : FilePtr) (name : List Char8) (m : ℕ) : DiskImage :=
  storeBytes host s f.block (4 * f.word) ((name ++ List.replicate m 0).take m)

/-- `init_disk`. -/
def initDisk : Except FormatStop DiskImage := do
  diskIndex n (2 + (nbitblock n - 1))
  let s : DiskImage :=
    { disk := onesInBitmap n
      type := fun b => if b = 0 then .boot else if b = 1 then .super
        else if b < 2 + nbitblock n then .bmap else .free
      nextbno := 2 + nbitblock n }
  let diff := n % 32768 / 8
  let s := if n ≠ nbitblock n * 32768 then
      storeBytes host s (2 + (nbitblock n - 1)) diff (List.replicate (4096 - diff) 0)
    else s
  let s := s.store ⟨1, 0⟩ fsMagic
  let s := s.store ⟨1, 1⟩ (BitVec.ofNat 32 n)
  let s := s.store FilePtr.root.type ftypeDir
  pure (strcpy host s FilePtr.root [slash])

/-- The structure that the inner loop of `create_file` stops at. -/
def findUnused (s : DiskImage) (bno : ℕ) : Option ℕ :=
  (List.range' 0 file2blk).find? fun j => nameByte host s (FilePtr.entry bno j) 0 == 0

/-- The outer loop of `create_file`, with `k` rounds to go. -/
def createFileFrom (s : DiskImage) (dirf : FilePtr) (nblk : ℕ) :
    ℕ → Except FormatStop (Option FilePtr)
  | 0 => pure none
  | k + 1 => do
    let bno ← lastLink n s dirf nblk
    diskIndex n bno
    match findUnused host s bno with
    | some j => pure (some (FilePtr.entry bno j))
    | none => createFileFrom s dirf nblk k

/-- `create_file`. -/
def createFile (s : DiskImage) (dirf : FilePtr) : Except FormatStop (FilePtr × DiskImage) := do
  let nblk := (s.load dirf.size).toNat / 4096
  match ← createFileFrom host n s dirf nblk nblk with
  | some f => pure (f, s)
  | none =>
    let (bno, s) ← makeLinkBlock n s dirf nblk
    diskIndex n bno
    pure (FilePtr.entry bno 0, s)

/-- The loop of `write_file` that reads the file, from its block `iblk` on. -/
def readBlocks (s : DiskImage) (target : FilePtr) (iblk : ℕ) (data : List Char8) :
    Except FormatStop DiskImage := do
  diskIndex n s.nextbno
  match data with
  | [] => pure s
  | data@(_ :: _) =>
    let s := storeBytes host s s.nextbno 0 (data.take 4096)
    let (bno, s) ← nextBlock n s .data
    let s ← saveBlockLink n s target iblk bno
    readBlocks s target (iblk + 1) (data.drop 4096)
  termination_by data.length

/-- `write_file`. -/
def writeFile (s : DiskImage) (dirf : FilePtr) (fname data : List Char8) :
    Except FormatStop DiskImage := do
  let (target, s) ← createFile host n s dirf
  let s := strcpy host s target fname
  let s := s.store target.size (BitVec.ofNat 32 data.length)
  let s := s.store target.type ftypeReg
  readBlocks host n s target 0 data

/-- `write_symlink`. -/
def writeSymlink (s : DiskImage) (dirf : FilePtr) (fname path : List Char8) :
    Except FormatStop DiskImage := do
  let (target, s) ← createFile host n s dirf
  diskIndex n s.nextbno
  let bytes := path.take 4096
  let s := storeBytes host s s.nextbno 0 bytes
  let s := strcpy host s target fname
  let s := s.store target.size (BitVec.ofNat 32 bytes.length)
  let s := s.store target.type ftypeLnk
  let (bno, s) ← nextBlock n s .data
  saveBlockLink n s target 0 bno

/-- The structure of a directory in `write_directory`, before its entries are written. -/
def makeDirectory (s : DiskImage) (dirf : FilePtr) (fname : List Char8) :
    Except FormatStop (FilePtr × DiskImage) := do
  let (pdir, s) ← createFile host n s dirf
  let s := strncpy host s pdir fname (maxnamelen - 1)
  if nameByte host s pdir (maxnamelen - 1) ≠ 0 then throw .exit
  else pure (pdir, s.store pdir.type ftypeDir)

/-- The loops of `main` and of `write_directory` over what is in a directory. -/
def writeEntries (s : DiskImage) (dirf : FilePtr) : HostDir → Except FormatStop DiskImage
  | .nil => pure s
  | .file name data rest => do
    let s ← writeFile host n s dirf name data
    writeEntries s dirf rest
  | .link name target rest => do
    let s ← writeSymlink host n s dirf name target
    writeEntries s dirf rest
  | .dir name children rest => do
    let (pdir, s) ← makeDirectory host n s dirf name
    let s ← writeEntries s pdir children
    writeEntries s dirf rest

/-- `main` up to `finish_fs`. -/
def formatDisk (args : HostDir) : Except FormatStop DiskImage := do
  let s ← initDisk host n
  match args with
  | .nil => throw .exit
  | args => do
    let s ← writeEntries host n s FilePtr.root args
    flushBitmap n s

/-- `finish_fs`: the bytes of the image, for a machine with the byte order `target`. -/
def finishFs (target : Endian) (s : DiskImage) (b : ℕ) : ℕ → Char8 :=
  let data := host.bytes (s.disk b)
  if host ≠ target then reverseBlock host (s.type b) data else data

/-! ## On a little-endian host -/

section Little

variable {n} {s : DiskImage} {f : FilePtr}

lemma storeBytes_little (s : DiskImage) (b k : ℕ) (l : List Char8) :
    storeBytes .little s b k l = s.storeBytes b k l := by
  rw [storeBytes, Endian.put_little]
  rfl

lemma strcpy_little (s : DiskImage) (f : FilePtr) (name : List Char8) :
    strcpy .little s f name = s.strcpy f name := storeBytes_little _ _ _ _

lemma strncpy_little (s : DiskImage) (f : FilePtr) (name : List Char8) (m : ℕ) :
    strncpy .little s f name m = s.strncpy f name m := storeBytes_little _ _ _ _

lemma initDisk_little : initDisk .little n = MosVolca.initDisk n := by
  unfold initDisk MosVolca.initDisk
  simp only [storeBytes_little, strcpy_little]

lemma createFileFrom_little (nblk k : ℕ) :
    createFileFrom .little n s f nblk k = MosVolca.createFileFrom n s f nblk k := by
  induction k with
  | zero => rfl
  | succ k ih =>
    rw [createFileFrom, MosVolca.createFileFrom, ih]
    rfl

lemma createFile_little : createFile .little n s f = MosVolca.createFile n s f := by
  unfold createFile MosVolca.createFile
  exact congrArg (fun x => x >>= _) (createFileFrom_little _ _)

lemma readBlocks_little (k : ℕ) (data : List Char8) :
    readBlocks .little n s f k data = MosVolca.readBlocks n s f k data := by
  induction hlen : data.length using Nat.strong_induction_on generalizing s k data with
  | _ m ih =>
    rw [readBlocks.eq_def, MosVolca.readBlocks.eq_def]
    cases data with
    | nil => rfl
    | cons a data =>
      simp only [storeBytes_little]
      refine bind_congr fun _ => bind_congr fun r => bind_congr fun s1 => ?_
      exact ih _ (by rw [← hlen, List.length_drop, List.length_cons]; omega) _ _ rfl

lemma writeFile_little (name data : List Char8) :
    writeFile .little n s f name data = MosVolca.writeFile n s f name data := by
  unfold writeFile MosVolca.writeFile
  simp only [createFile_little, strcpy_little, readBlocks_little]

lemma writeSymlink_little (name target : List Char8) :
    writeSymlink .little n s f name target = MosVolca.writeSymlink n s f name target := by
  unfold writeSymlink MosVolca.writeSymlink
  simp only [createFile_little, strcpy_little, storeBytes_little]

lemma makeDirectory_little (name : List Char8) :
    makeDirectory .little n s f name = MosVolca.makeDirectory n s f name := by
  unfold makeDirectory MosVolca.makeDirectory
  simp only [createFile_little, strncpy_little]
  rfl

/-- On a little-endian host the words are as they are. -/
lemma writeEntries_little (d : HostDir) :
    writeEntries .little n s f d = MosVolca.writeEntries n s f d := by
  induction d generalizing s f with
  | nil => rfl
  | file name data rest ih =>
    rw [writeEntries, MosVolca.writeEntries, writeFile_little]
    exact bind_congr fun s => ih
  | link name target rest ih =>
    rw [writeEntries, MosVolca.writeEntries, writeSymlink_little]
    exact bind_congr fun s => ih
  | dir name children rest ihc ihr =>
    rw [writeEntries, MosVolca.writeEntries, makeDirectory_little]
    refine bind_congr fun ⟨g, s1⟩ => ?_
    dsimp only
    rw [ihc]
    exact bind_congr fun s => ihr

/-- **On a little-endian host** the program is the one on words. -/
theorem formatDisk_little (args : HostDir) :
    formatDisk .little n args = MosVolca.formatDisk n args := by
  unfold formatDisk MosVolca.formatDisk
  rw [initDisk_little]
  refine bind_congr fun s => ?_
  cases args with
  | nil => rfl
  | file name data rest => exact congrArg (fun x => x >>= _) (writeEntries_little _)
  | link name target rest => exact congrArg (fun x => x >>= _) (writeEntries_little _)
  | dir name children rest => exact congrArg (fun x => x >>= _) (writeEntries_little _)

end Little

/-! ## The magic number -/

/-- `s_magic` is `FS_MAGIC`, and the super block is handed out. -/
structure HasMagic (s : DiskImage) : Prop where
  magic : s.disk 1 0 = fsMagic
  lt : 1 < s.nextbno

section Magic

variable {host n} {s s' : DiskImage} {f : FilePtr} {p : WordPtr} {x : Word} {b k : ℕ}

/-- The structure does not begin with the magic number. -/
def Apart (f : FilePtr) : Prop := f.block ≠ 1 ∨ 0 < f.word

lemma HasMagic.store (h : HasMagic s) (hp : 0 < p.word) : HasMagic (s.store p x) :=
  ⟨(store_disk_of_ne fun hw => by omega).trans h.magic, h.lt⟩

/-- Bytes that lie apart from the magic number. -/
lemma HasMagic.storeBytes {l : List Char8} (h : HasMagic s) (hb : b ≠ 1 ∨ 4 ≤ k) :
    HasMagic (storeBytes host s b k l) := by
  refine ⟨Eq.trans ?_ h.magic, h.lt⟩
  by_cases hb1 : b = 1
  · subst hb1
    change Function.update s.disk 1 (host.put (s.disk 1) k l) 1 0 = _
    rw [Function.update_self, Endian.put_of_disjoint (.inl (by omega))]
  · exact congrFun (Function.update_of_ne (Ne.symm hb1) _ _) 0

lemma HasMagic.strcpy {name : List Char8} (h : HasMagic s) (hf : Apart f) :
    HasMagic (strcpy host s f name) := h.storeBytes (hf.imp_right fun hw => by omega)

lemma HasMagic.give {type : BlockType} (h : HasMagic s) : HasMagic (s.give type) :=
  ⟨h.magic, h.lt.trans (Nat.lt_succ_self _)⟩

lemma HasMagic.saveBlockLink {bno : ℕ} (h : HasMagic s)
    (hrun : saveBlockLink n s f k bno = .ok s') : HasMagic s' := by
  obtain ⟨-, ⟨-, rfl⟩ | ⟨hk, -, rfl⟩ | ⟨hk, -, -, rfl⟩⟩ := saveBlockLink_cases hrun
  · exact h.store (by simp only [FilePtr.direct]; omega)
  · exact h.store (by simp only; omega)
  · exact (h.give.store (by simp only [FilePtr.indirect]; omega)).store (by simp only; omega)

/-- The new block is none of the first two. -/
lemma HasMagic.makeLinkBlock {r : ℕ × DiskImage} (h : HasMagic s)
    (hrun : makeLinkBlock n s f k = .ok r) : HasMagic r.2 ∧ 1 < r.1 := by
  unfold MosVolca.makeLinkBlock at hrun
  obtain ⟨q, hnext, hrun⟩ := bind_ok_iff.mp hrun
  obtain ⟨-, rfl⟩ := nextBlock_cases hnext
  obtain ⟨s1, hsave, hrun⟩ := bind_ok_iff.mp hrun
  obtain rfl := Except.ok.inj hrun
  exact ⟨(h.give.saveBlockLink hsave).store (by simp only [FilePtr.size]; omega), h.lt⟩

/-- The magic number is not an empty name. -/
lemma HasMagic.nameByte_ne (h : HasMagic s) : nameByte host s (FilePtr.entry 1 0) 0 ≠ 0 := by
  have hword : (s.disk (FilePtr.entry 1 0).block) 0 = fsMagic := h.magic
  unfold nameByte Endian.bytes
  rw [show (4 * (FilePtr.entry 1 0).word + 0) / 4 = 0 from rfl, hword]
  cases host <;> decide

lemma HasMagic.findUnused {j : ℕ} (h : HasMagic s) (hj : findUnused host s b = some j) :
    Apart (FilePtr.entry b j) := by
  by_contra hnot
  obtain ⟨hb, hw⟩ := not_or.mp hnot
  obtain rfl : b = 1 := not_not.mp hb
  obtain rfl : j = 0 := by
    simp only [FilePtr.entry] at hw
    omega
  unfold HostFormat.findUnused at hj
  have hname := List.find?_some hj
  exact h.nameByte_ne (beq_iff_eq.mp hname)

lemma HasMagic.createFileFrom {m : ℕ} {g : FilePtr} (h : HasMagic s)
    (hrun : createFileFrom host n s f m k = .ok (some g)) : Apart g := by
  induction k with
  | zero => cases hrun
  | succ k ih =>
    rw [HostFormat.createFileFrom] at hrun
    obtain ⟨b, -, hrun⟩ := bind_ok_iff.mp hrun
    obtain ⟨-, -, hrun⟩ := bind_ok_iff.mp hrun
    cases hj : HostFormat.findUnused host s b with
    | none =>
      rw [hj] at hrun
      exact ih hrun
    | some j =>
      rw [hj] at hrun
      obtain rfl := Option.some.inj (Except.ok.inj hrun)
      exact h.findUnused hj

/-- A new entry lies apart from the super block. -/
lemma HasMagic.createFile {r : FilePtr × DiskImage} (h : HasMagic s)
    (hrun : createFile host n s f = .ok r) : HasMagic r.2 ∧ Apart r.1 := by
  unfold HostFormat.createFile at hrun
  obtain ⟨o, hfrom, hrun⟩ := bind_ok_iff.mp hrun
  cases o with
  | some g =>
    obtain rfl := Except.ok.inj hrun
    exact ⟨h, h.createFileFrom hfrom⟩
  | none =>
    obtain ⟨q, hmake, hrun⟩ := bind_ok_iff.mp hrun
    obtain ⟨-, -, hrun⟩ := bind_ok_iff.mp hrun
    obtain rfl := Except.ok.inj hrun
    have hq := h.makeLinkBlock hmake
    exact ⟨hq.1, .inl hq.2.ne'⟩

/-- The data of a file go to new blocks. -/
lemma HasMagic.readBlocks {data : List Char8} (h : HasMagic s)
    (hrun : readBlocks host n s f k data = .ok s') : HasMagic s' := by
  induction hlen : data.length using Nat.strong_induction_on generalizing s k data with
  | _ m ih =>
    rw [HostFormat.readBlocks.eq_def] at hrun
    obtain ⟨-, -, hrun⟩ := bind_ok_iff.mp hrun
    cases data with
    | nil =>
      obtain rfl := Except.ok.inj hrun
      exact h
    | cons a data =>
      obtain ⟨q, hnext, hrun⟩ := bind_ok_iff.mp hrun
      obtain ⟨-, rfl⟩ := nextBlock_cases hnext
      obtain ⟨s1, hsave, hrun⟩ := bind_ok_iff.mp hrun
      have h1 := (h.storeBytes (.inl h.lt.ne')).give.saveBlockLink hsave
      exact ih _ (by rw [← hlen, List.length_drop, List.length_cons]; omega) h1 hrun rfl

lemma HasMagic.writeFile {name data : List Char8} (h : HasMagic s)
    (hrun : writeFile host n s f name data = .ok s') : HasMagic s' := by
  unfold HostFormat.writeFile at hrun
  obtain ⟨r, hcreate, hrun⟩ := bind_ok_iff.mp hrun
  obtain ⟨h1, hr⟩ := h.createFile hcreate
  refine HasMagic.readBlocks (((h1.strcpy hr).store ?_).store ?_) hrun
  · exact Nat.succ_pos _
  · exact Nat.succ_pos _

lemma HasMagic.writeSymlink {name target : List Char8} (h : HasMagic s)
    (hrun : writeSymlink host n s f name target = .ok s') : HasMagic s' := by
  unfold HostFormat.writeSymlink at hrun
  obtain ⟨r, hcreate, hrun⟩ := bind_ok_iff.mp hrun
  obtain ⟨-, -, hrun⟩ := bind_ok_iff.mp hrun
  obtain ⟨q, hnext, hrun⟩ := bind_ok_iff.mp hrun
  obtain ⟨-, rfl⟩ := nextBlock_cases hnext
  obtain ⟨h1, hr⟩ := h.createFile hcreate
  refine HasMagic.saveBlockLink (HasMagic.give ?_) hrun
  refine ((((h1.storeBytes (.inl h1.lt.ne')).strcpy hr).store ?_).store ?_)
  · exact Nat.succ_pos _
  · exact Nat.succ_pos _

/-- The entry of a directory lies apart from the super block. -/
lemma HasMagic.makeDirectory {name : List Char8} {r : FilePtr × DiskImage} (h : HasMagic s)
    (hrun : makeDirectory host n s f name = .ok r) : HasMagic r.2 := by
  unfold HostFormat.makeDirectory at hrun
  obtain ⟨q, hcreate, hrun⟩ := bind_ok_iff.mp hrun
  obtain ⟨h1, hq⟩ := h.createFile hcreate
  dsimp only at hrun
  split_ifs at hrun with hend
  obtain rfl := Except.ok.inj hrun
  exact (h1.storeBytes (hq.imp_right fun hw => by omega)).store (Nat.succ_pos _)

/-- The entries are written behind the super block. -/
lemma HasMagic.writeEntries {d : HostDir} (h : HasMagic s)
    (hrun : writeEntries host n s f d = .ok s') : HasMagic s' := by
  induction d generalizing s s' f with
  | nil =>
    obtain rfl := Except.ok.inj hrun
    exact h
  | file name data rest ih =>
    obtain ⟨s1, hfile, hrun⟩ := bind_ok_iff.mp hrun
    exact ih (h.writeFile hfile) hrun
  | link name target rest ih =>
    obtain ⟨s1, hlink, hrun⟩ := bind_ok_iff.mp hrun
    exact ih (h.writeSymlink hlink) hrun
  | dir name children rest ihc ihr =>
    obtain ⟨r, hmake, hrun⟩ := bind_ok_iff.mp hrun
    obtain ⟨s1, hin, hrun⟩ := bind_ok_iff.mp hrun
    exact ihr (ihc (h.makeDirectory hmake) hin) hrun

/-- `init_disk` sets the magic number. -/
lemma hasMagic_initDisk (hrun : initDisk host n = .ok s) : HasMagic s := by
  unfold initDisk at hrun
  obtain ⟨-, -, hrun⟩ := bind_ok_iff.mp hrun
  obtain rfl := Except.ok.inj hrun
  refine HasMagic.strcpy ((HasMagic.store ?_ (by decide)).store (by decide)) (.inr (by decide))
  refine ⟨wordAt_store _ ⟨1, 0⟩ _, ?_⟩
  split_ifs <;> exact Nat.lt_of_lt_of_le (by decide) (Nat.le_add_right 2 _)

/-- `flush_bitmap` writes to the bitmap blocks only. -/
lemma HasMagic.flushBitmap (h : HasMagic s) (hrun : flushBitmap n s = .ok s') : HasMagic s' := by
  have hfold : ∀ (l : List ℕ) (c c' : Blocks), l.foldlM (flushBit n) c = .ok c' →
      c' 1 0 = c 1 0 := by
    intro l
    induction l with
    | nil =>
      intro c c' hrun
      obtain rfl := Except.ok.inj hrun
      rfl
    | cons i l ih =>
      intro c c' hrun
      rw [List.foldlM_cons] at hrun
      obtain ⟨c1, hbit, hrun⟩ := bind_ok_iff.mp hrun
      rw [ih c1 c' hrun]
      obtain ⟨-, -, hbit⟩ := bind_ok_iff.mp hbit
      obtain rfl := Except.ok.inj hbit
      exact TwoLevel.write_of_ne (.inl (by simp only; omega))
  unfold MosVolca.flushBitmap at hrun
  obtain ⟨c', hrounds, hrun⟩ := bind_ok_iff.mp hrun
  obtain rfl := Except.ok.inj hrun
  exact ⟨(hfold _ _ _ hrounds).trans h.magic, h.lt⟩

/-- **On every host** the magic number of an image is `FS_MAGIC`, as the host reads it. -/
theorem formatDisk_magic {args : HostDir} (hrun : formatDisk host n args = .ok s) :
    s.disk 1 0 = fsMagic := by
  unfold formatDisk at hrun
  obtain ⟨s0, hinit, hrun⟩ := bind_ok_iff.mp hrun
  have h0 := hasMagic_initDisk hinit
  have hentries : (writeEntries host n s0 FilePtr.root args >>= fun s => flushBitmap n s) = .ok s := by
    cases args with
    | nil => cases hrun
    | file name data rest => exact hrun
    | link name target rest => exact hrun
    | dir name children rest => exact hrun
  obtain ⟨s1, hwrite, hflush⟩ := bind_ok_iff.mp hentries
  exact ((h0.writeEntries hwrite).flushBitmap hflush).magic

end Magic

end HostFormat

end MosVolca
