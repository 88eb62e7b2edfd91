import MosVolca.User.FdCases
import MosVolca.Library.ByteLoop

/-!
# The window of a file

`file_read` and `file_write` copy between a buffer and the window where a file is mapped. Both test
the sum `offset + n`, which may wrap: `file_read` then copies `n` bytes whatever is left of the file,
and `file_write` copies to addresses outside of `[offset, offset + n)`.

## Main definitions

* `MosVolca.ReadsWindow`, `MosVolca.WritesWindow` — what the two functions should copy.

## Main results

* `MosVolca.Client.OpenFile.fileWindow_iff` — when they copy that.
* `MosVolca.fileWindow_wraps` — two sums that wrap.
-/

namespace MosVolca

/-- The addresses that a call of `memcpy` writes to. -/
def Memcpy.written (m : Memcpy) : List Word := ByteLoop.addrs m.dst m.count

/-- `file_read` of descriptor `i` returns at most what is left of the file from `offset` on, and
copies that much from there to the buffer. -/
def ReadsWindow (i : ℕ) (size buf offset r : Word) (m : Option Memcpy) : Prop :=
  r.toNat ≤ size.toNat - offset.toNat ∧
    m.elim (r = 0) fun m =>
      m.dst = buf ∧ m.src = index2data (BitVec.ofNat 32 i) + offset ∧ m.count = r.toNat

/-- `file_write` of descriptor `i` returns `-E_NO_DISK` and copies nothing, or it writes to bytes of
`[offset, offset + n)` only, and these are in the window. -/
def WritesWindow (i : ℕ) (n offset r : Word) (m : Option Memcpy) : Prop :=
  (r = -eNoDisk ∧ m = none) ∨
    offset.toNat + n.toNat ≤ maxfilesize.toNat ∧
      ∀ va ∈ m.elim [] Memcpy.written, ∃ j, offset.toNat ≤ j ∧ j < offset.toNat + n.toNat ∧
        va.toNat = (index2data (BitVec.ofNat 32 i)).toNat + j

namespace Client

variable {σ : Type} {svc : FileService σ} {c c' : Client σ} {i : ℕ} {p : UserPage}
  {r buf n offset : Word} {m : Option Memcpy}

namespace OpenFile

variable (ho : OpenFile c i p)
include ho

/-- What `file_read` returns. -/
lemma fileRead_eq (buf n offset : Word) : c.fileRead (index2fd (BitVec.ofNat 32 i)) buf n offset =
    .ok (if offset > c.fileSize p then (0, none, c)
      else
        let k := if offset + n > c.fileSize p then c.fileSize p - offset else n
        (k, some ⟨buf, index2data (BitVec.ofNat 32 i) + offset, k⟩, c)) := by
  rw [fileRead, ho.load_size, ok_bind, fd2data_index2fd ho.lt]
  dsimp only
  split_ifs <;> rfl

/-- **`file_read`** stays inside of the file exactly if the sum does not wrap, or `offset` is beyond
the file. -/
theorem fileRead_iff (hsize : c.fileSize p ≤ maxfilesize)
    (hbuf : buf.toNat + min n.toNat ((c.fileSize p).toNat - offset.toNat) < 2 ^ 32) :
    ∃ r m, c.fileRead (index2fd (BitVec.ofNat 32 i)) buf n offset = .ok (r, m, c) ∧
      (ReadsWindow i (c.fileSize p) buf offset r m ↔
        offset > c.fileSize p ∨ offset.toNat + n.toNat < 2 ^ 32) := by
  rw [ho.fileRead_eq]
  rw [BitVec.le_def, maxfilesize_toNat] at hsize
  by_cases hgt : offset > c.fileSize p
  · rw [if_pos hgt]
    exact ⟨_, _, rfl, iff_of_true ⟨Nat.zero_le _, rfl⟩ (.inl hgt)⟩
  rw [if_neg hgt]
  refine ⟨_, _, rfl, ?_⟩
  have hle : offset.toNat ≤ (c.fileSize p).toNat := by
    rw [gt_iff_lt, BitVec.lt_def] at hgt
    omega
  have hsub : (c.fileSize p - offset).toNat = (c.fileSize p).toNat - offset.toNat :=
    BitVec.toNat_sub_of_le hle
  have hn := n.isLt
  constructor
  · rintro ⟨hr, -⟩
    right
    by_contra hwrap
    -- the sum that wraps is below `offset`, and `n` is larger than any file
    have hsum : (offset + n).toNat = offset.toNat + n.toNat - 2 ^ 32 := by
      rw [BitVec.toNat_add]
      omega
    rw [if_neg (by rw [gt_iff_lt, BitVec.lt_def, hsum]; omega)] at hr
    omega
  · rintro (h | h)
    · exact absurd h hgt
    have hsum : (offset + n).toNat = offset.toNat + n.toNat := by
      rw [BitVec.toNat_add, Nat.mod_eq_of_lt h]
    have hk : (if offset + n > c.fileSize p then c.fileSize p - offset else n).toNat =
        min n.toNat ((c.fileSize p).toNat - offset.toNat) := by
      split_ifs with hs
      · rw [gt_iff_lt, BitVec.lt_def, hsum] at hs
        rw [hsub]
        omega
      · rw [gt_iff_lt, BitVec.lt_def, hsum] at hs
        omega
    refine ⟨by rw [hk]; exact min_le_right _ _, rfl, rfl, ?_⟩
    rw [Memcpy.count, if_pos (by rw [hk]; exact hbuf)]

/-- The addresses of a range of the window. -/
lemma written_inside (h : offset.toNat + n.toNat ≤ 0x400000) :
    ∀ va ∈ (⟨index2data (BitVec.ofNat 32 i) + offset, buf, n⟩ : Memcpy).written,
      ∃ j, offset.toNat ≤ j ∧ j < offset.toNat + n.toNat ∧
        va.toNat = (index2data (BitVec.ofNat 32 i)).toNat + j := by
  intro va hva
  obtain ⟨k, hk, rfl⟩ := ByteLoop.mem_addrs.mp hva
  have hi := ho.lt
  have hdata := index2data_toNat hi
  unfold maxfd at hi
  unfold dataVpn at hdata
  have hdst : (index2data (BitVec.ofNat 32 i) + offset).toNat =
      (index2data (BitVec.ofNat 32 i)).toNat + offset.toNat := by
    rw [BitVec.toNat_add, Nat.mod_eq_of_lt (by omega)]
  have hkn : k < n.toNat := by
    unfold Memcpy.count at hk
    split_ifs at hk
    · exact hk
    · omega
  refine ⟨offset.toNat + k, by omega, by omega, ?_⟩
  rw [BitVec.toNat_add, BitVec.toNat_ofNat]
  dsimp only
  rw [hdst]
  omega

/-- What `file_write` returns: it refuses a sum that is too large, it returns the error of
`ftruncate`, or it copies. -/
lemma fileWrite_cases
    (h : c.fileWrite svc (index2fd (BitVec.ofNat 32 i)) buf n offset = .ok (r, m, c')) :
    (offset + n > maxfilesize ∧ r = -eNoDisk ∧ m = none) ∨
      ¬ offset + n > maxfilesize ∧
        ((offset + n > c.fileSize p ∧ m = none ∧ ∃ s, c.server = some s ∧
            svc.sizeRefusal (c.fileId p) (c.fileSize p) (offset + n) s = .ok (some r)) ∨
          (offset + n > c.fileSize p → ∃ s, c.server = some s ∧
            svc.sizeRefusal (c.fileId p) (c.fileSize p) (offset + n) s = .ok none) ∧
          m = some ⟨index2data (BitVec.ofNat 32 i) + offset, buf, n⟩) := by
  unfold fileWrite at h
  by_cases hmax : offset + n > maxfilesize
  · rw [if_pos hmax] at h
    cases h
    exact .inl ⟨hmax, rfl, rfl⟩
  refine .inr ⟨hmax, ?_⟩
  rw [if_neg hmax, ho.load_size, ok_bind, fd2num_index2fd ho.lt, fd2data_index2fd ho.lt] at h
  dsimp only at h
  by_cases hgt : offset + n > c.fileSize p
  · rw [if_pos hgt] at h
    obtain ⟨⟨r1, c1⟩, h1, h⟩ := bind_eq_ok.mp h
    rcases ho.ftruncate_iff.mp h1 with ⟨hlarge, -⟩ | ⟨-, -, h1⟩
    · exact absurd hlarge hmax
    obtain ⟨s, hs, href, -⟩ := ftruncatePages_refusal h1
    dsimp only at h
    split_ifs at h with hneg
    · cases h
      rw [if_pos hneg] at href
      exact .inl ⟨hgt, rfl, s, hs, href⟩
    · cases h
      rw [if_neg hneg] at href
      exact .inr ⟨fun _ => ⟨s, hs, href⟩, rfl⟩
  · rw [if_neg hgt, pure_eq_ok, ok_bind] at h
    cases h
    exact .inr ⟨fun h => absurd h hgt, rfl⟩

/-- **`file_write`** stays inside of the window exactly if the sum does not wrap, or the sum is too
large even so, or it makes the file grow and the disk is full. -/
theorem fileWrite_iff
    (h : c.fileWrite svc (index2fd (BitVec.ofNat 32 i)) buf n offset = .ok (r, m, c')) :
    WritesWindow i n offset r m ↔
      offset.toNat + n.toNat < 2 ^ 32 ∨ offset + n > maxfilesize ∨
        offset + n > c.fileSize p ∧ ∃ s, c.server = some s ∧
          svc.sizeRefusal (c.fileId p) (c.fileSize p) (offset + n) s = .ok (some (-eNoDisk)) := by
  have hlt := offset.isLt
  have hnlt := n.isLt
  have hsum : (offset + n).toNat = (offset.toNat + n.toNat) % 2 ^ 32 := BitVec.toNat_add ..
  rcases ho.fileWrite_cases h with ⟨hmax, rfl, rfl⟩ | ⟨hmax, ⟨hgt, rfl, s, hs, href⟩ | ⟨hok, rfl⟩⟩
  · exact iff_of_true (.inl ⟨rfl, rfl⟩) (.inr (.inl hmax))
  · have hmax' := hmax
    rw [gt_iff_lt, BitVec.lt_def, maxfilesize_toNat, hsum] at hmax'
    constructor
    · rintro (⟨rfl, -⟩ | ⟨hle, -⟩)
      · exact .inr (.inr ⟨hgt, s, hs, href⟩)
      · rw [maxfilesize_toNat] at hle
        exact .inl (by omega)
    · rintro (hw | hlarge | ⟨-, s', hs', href'⟩)
      · exact .inr ⟨by rw [maxfilesize_toNat]; omega, by simp⟩
      · exact absurd hlarge hmax
      · rw [Option.some.inj (hs.symm.trans hs'), href'] at href
        exact .inl ⟨(Option.some.inj (Except.ok.inj href)).symm, rfl⟩
  · have hmax' := hmax
    rw [gt_iff_lt, BitVec.lt_def, maxfilesize_toNat, hsum] at hmax'
    constructor
    · rintro (⟨-, hnone⟩ | ⟨hle, -⟩)
      · cases hnone
      · rw [maxfilesize_toNat] at hle
        exact .inl (by omega)
    · rintro (hw | hlarge | ⟨hgt, s, hs, href⟩)
      · refine .inr ⟨by rw [maxfilesize_toNat]; omega, ?_⟩
        rw [Option.elim_some]
        exact ho.written_inside (by omega)
      · exact absurd hlarge hmax
      · obtain ⟨s', hs', href'⟩ := hok hgt
        rw [Option.some.inj (hs.symm.trans hs'), href'] at href
        cases href

/-- **The window of a file.** `file_read` and `file_write` of an open file stay inside exactly if the
sums do not wrap, up to the calls that copy nothing all the same. -/
theorem fileWindow_iff (hsize : c.fileSize p ≤ maxfilesize)
    (hbuf : buf.toNat + min n.toNat ((c.fileSize p).toNat - offset.toNat) < 2 ^ 32) :
    (∃ r m, c.fileRead (index2fd (BitVec.ofNat 32 i)) buf n offset = .ok (r, m, c) ∧
      (ReadsWindow i (c.fileSize p) buf offset r m ↔
        offset > c.fileSize p ∨ offset.toNat + n.toNat < 2 ^ 32)) ∧
    ∀ r m c', c.fileWrite svc (index2fd (BitVec.ofNat 32 i)) buf n offset = .ok (r, m, c') →
      (WritesWindow i n offset r m ↔
        offset.toNat + n.toNat < 2 ^ 32 ∨ offset + n > maxfilesize ∨
          offset + n > c.fileSize p ∧ ∃ s, c.server = some s ∧
            svc.sizeRefusal (c.fileId p) (c.fileSize p) (offset + n) s = .ok (some (-eNoDisk))) :=
  ⟨ho.fileRead_iff hsize hbuf, fun _ _ _ => ho.fileWrite_iff⟩

end OpenFile

end Client

/-! ## Sums that wrap -/

/-- One open file of 1 byte, with descriptor 0. -/
def oneByteFile : Client Unit where
  map := fun n => if n = fdVpn 0 then some ⟨7, pteD ||| pteLibrary ||| pteV⟩ else none
  table := fun n => n == 383
  mem := fun _ k => if k = 0 then devfileId else if k = 36 then 1 else 0
  grants := fun _ => none
  server := none
  tables := fdVpn_table

/-- The page of its `struct Filefd`. -/
def oneBytePage : UserPage := ⟨7, pteD ||| pteLibrary ||| pteV⟩

lemma oneByteFile_open : oneByteFile.OpenFile 0 oneBytePage := ⟨by decide, by decide, by decide⟩

/-- A server that refuses every request. -/
def refusing : FileService Unit where
  page := fun s _ => pure (.error ⟨-eInval, eInval_refuses⟩, s)
  value := fun s _ => pure (-eInval, s)

/-- The theorem for one byte at the start of the file. -/
theorem fileWindow_iff_oneByteFile :
    (∃ r m, oneByteFile.fileRead (index2fd (BitVec.ofNat 32 0)) 0x400000 1 0 =
        .ok (r, m, oneByteFile) ∧
      (ReadsWindow 0 (oneByteFile.fileSize oneBytePage) 0x400000 0 r m ↔
        (0 : Word) > oneByteFile.fileSize oneBytePage ∨
          (0 : Word).toNat + (1 : Word).toNat < 2 ^ 32)) ∧
    ∀ r m c', oneByteFile.fileWrite refusing (index2fd (BitVec.ofNat 32 0)) 0x400000 1 0 =
        .ok (r, m, c') →
      (WritesWindow 0 1 0 r m ↔
        (0 : Word).toNat + (1 : Word).toNat < 2 ^ 32 ∨ (0 : Word) + 1 > maxfilesize ∨
          (0 : Word) + 1 > oneByteFile.fileSize oneBytePage ∧ ∃ s, oneByteFile.server = some s ∧
            refusing.sizeRefusal (oneByteFile.fileId oneBytePage) (oneByteFile.fileSize oneBytePage)
              (0 + 1) s = .ok (some (-eNoDisk))) :=
  oneByteFile_open.fileWindow_iff (by decide) (by decide)

/-- **Sums that wrap.** With an open file of 1 byte, `file_read` of `2 ^ 32 - 1` bytes from the end
of the file on returns that many, and `file_write` of 2 bytes at the offset `2 ^ 32 - 1` writes to
the byte before the window. -/
theorem fileWindow_wraps :
    (∃ r m, oneByteFile.fileRead (index2fd (BitVec.ofNat 32 0)) 0x400000 0xffffffff 1 =
        .ok (r, m, oneByteFile) ∧
      ¬ ReadsWindow 0 (oneByteFile.fileSize oneBytePage) 0x400000 1 r m) ∧
    ∃ r m, oneByteFile.fileWrite refusing (index2fd (BitVec.ofNat 32 0)) 0x400000 2 0xffffffff =
        .ok (r, m, oneByteFile) ∧ ¬ WritesWindow 0 2 0xffffffff r m := by
  have hwrite : oneByteFile.fileWrite refusing (index2fd (BitVec.ofNat 32 0)) 0x400000 2 0xffffffff =
      .ok (2, some ⟨0x5fffffff, 0x400000, 2⟩, oneByteFile) := by rfl
  constructor
  · rw [oneByteFile_open.fileRead_eq]
    refine ⟨_, _, rfl, ?_⟩
    rintro ⟨hr, -⟩
    exact absurd hr (by decide)
  · refine ⟨_, _, hwrite, ?_⟩
    rintro (⟨hr, -⟩ | ⟨hle, -⟩)
    · exact absurd hr (by decide)
    · exact absurd hle (by decide)

end MosVolca
