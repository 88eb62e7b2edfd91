import MosVolca.Kern.Env

/-!
# Loading an ELF segment

`elf_load_seg` of `lib/elfloader.c`, for any mapper, and what its calls do to an address space in
which a call of the mapper replaces a whole page.

## Main definitions

* `MosVolca.elfLoadSeg` — `elf_load_seg`.
* `MosVolca.segCalls` — the calls of the mapper that it makes.
* `MosVolca.ByteSpace` — an address space of pages of bytes.
* `MosVolca.SegmentFits` — when the calls leave the segment in the space.

## Main results

* `MosVolca.elfLoadSeg_eq` — `elf_load_seg` makes the calls in turn.
* `MosVolca.loaded_segCalls_iff` — the segment is in the space after the calls if and only if
  `SegmentFits` says so.
-/

namespace MosVolca

/-- The fields of an `Elf32_Phdr` that `elf_load_seg` reads. -/
structure Phdr where
  vaddr : Word
  filesz : Word
  memsz : Word
  flags : Word

/-- `PF_W`. -/
def pfW : Word := 2

/-- The permission of the pages. -/
def Phdr.perm (ph : Phdr) : Word := if ph.flags &&& pfW ≠ 0 then pteV ||| pteD else pteV

/-- `va - ROUNDDOWN(va, BY2PG)`. -/
def Phdr.offset (ph : Phdr) : ℕ := ph.vaddr.toNat % 4096

/-- The `n` bytes of the binary from `i` on. -/
def bytesFrom (bin : ℕ → BitVec 8) (i n : ℕ) : List (BitVec 8) :=
  (List.range n).map fun j => bin (i + j)

section Loader

variable {σ : Type} (mapPage : σ → MapperCall → Kernel (Word × σ)) (ph : Phdr) (bin : ℕ → BitVec 8)

/-- `map_page(data, va + i, 0, perm, bin + i, MIN(bin_size - i, BY2PG))`. -/
def fileCall (i : ℕ) : MapperCall :=
  ⟨ph.vaddr + BitVec.ofNat 32 i, 0, ph.perm,
    some (bytesFrom bin i (min (ph.filesz.toNat - i) 4096))⟩

/-- `map_page(data, va + i, 0, perm, NULL, ...)`. -/
def zeroCall (i : ℕ) : MapperCall := ⟨ph.vaddr + BitVec.ofNat 32 i, 0, ph.perm, none⟩

/-- `MIN(bin_size, BY2PG - offset)`. -/
def Phdr.firstLen : ℕ := min ph.filesz.toNat (4096 - ph.offset)

/-- The call for the first page, if the segment does not start with a page. -/
def firstCall : MapperCall := ⟨ph.vaddr, ph.offset, ph.perm, some (bytesFrom bin 0 ph.firstLen)⟩

/-- Where the first loop starts. -/
def Phdr.start : ℕ := if ph.offset ≠ 0 then ph.firstLen else 0

/-- Step 2: pages of zeros, from `i` on. -/
def loadZero (i : ℕ) (s : σ) : Kernel (Word × σ) :=
  if i < ph.memsz.toNat then do
    let (r, s) ← mapPage s (zeroCall ph i)
    if r ≠ 0 then pure (r, s) else loadZero (i + 4096) s
  else pure (0, s)
termination_by ph.memsz.toNat - i
decreasing_by omega

/-- Step 1: pages of the file, from `i` on. `i` cannot wrap: a mapper does not have the pages for a
segment that ends in the last page below 2^32. -/
def loadFile (i : ℕ) (s : σ) : Kernel (Word × σ) :=
  if i < ph.filesz.toNat then do
    let (r, s) ← mapPage s (fileCall ph bin i)
    if r ≠ 0 then pure (r, s) else loadFile (i + 4096) s
  else loadZero mapPage ph i s
termination_by ph.filesz.toNat - i
decreasing_by omega

/-- `elf_load_seg`. -/
def elfLoadSeg (s : σ) : Kernel (Word × σ) := do
  if ph.offset ≠ 0 then do
    let (r, s) ← mapPage s (firstCall ph bin)
    if r ≠ 0 then pure (r, s) else loadFile mapPage ph bin ph.start s
  else loadFile mapPage ph bin ph.start s

/-! ## The calls -/

/-- The calls of step 2. -/
def zeroCalls (i : ℕ) : List MapperCall :=
  if i < ph.memsz.toNat then zeroCall ph i :: zeroCalls (i + 4096) else []
termination_by ph.memsz.toNat - i
decreasing_by omega

/-- The calls of step 1 and step 2. -/
def fileCalls (i : ℕ) : List MapperCall :=
  if i < ph.filesz.toNat then fileCall ph bin i :: fileCalls (i + 4096) else zeroCalls ph i
termination_by ph.filesz.toNat - i
decreasing_by omega

/-- The calls for a segment. -/
def segCalls : List MapperCall :=
  if ph.offset ≠ 0 then firstCall ph bin :: fileCalls ph bin ph.start
  else fileCalls ph bin ph.start

/-- The calls in turn, up to the first that fails. -/
def runCalls : List MapperCall → σ → Kernel (Word × σ)
  | [], s => pure (0, s)
  | c :: l, s => do
    let (r, s) ← mapPage s c
    if r ≠ 0 then pure (r, s) else runCalls l s

lemma loadZero_eq (i : ℕ) (s : σ) :
    loadZero mapPage ph i s = runCalls mapPage (zeroCalls ph i) s := by
  induction i, s using loadZero.induct ph with
  | case1 i s hi ih =>
    rw [loadZero, zeroCalls, if_pos hi, if_pos hi, runCalls]
    simp only [ih]
  | case2 i s hi =>
    rw [loadZero, zeroCalls, if_neg hi, if_neg hi]
    rfl

lemma loadFile_eq (i : ℕ) (s : σ) :
    loadFile mapPage ph bin i s = runCalls mapPage (fileCalls ph bin i) s := by
  induction i, s using loadFile.induct ph with
  | case1 i s hi ih =>
    rw [loadFile, fileCalls, if_pos hi, if_pos hi, runCalls]
    simp only [ih]
  | case2 i s hi =>
    rw [loadFile, fileCalls, if_neg hi, if_neg hi]
    exact loadZero_eq mapPage ph i s

/-- `elf_load_seg` makes the calls in turn, up to the first that fails. -/
theorem elfLoadSeg_eq (s : σ) :
    elfLoadSeg mapPage ph bin s = runCalls mapPage (segCalls ph bin) s := by
  unfold elfLoadSeg segCalls
  split_ifs
  · rw [runCalls]
    simp only [loadFile_eq]
  · exact loadFile_eq mapPage ph bin _ s

end Loader

/-! ## How many calls, and for which addresses -/

section Addresses

variable {ph : Phdr} {bin : ℕ → BitVec 8} {i : ℕ} {c : MapperCall}

/-- A call for a byte of the segment. -/
def InSegment (ph : Phdr) (c : MapperCall) : Prop :=
  c.perm = ph.perm ∧ ∃ j < ph.memsz.toNat, c.va = ph.vaddr + BitVec.ofNat 32 j

lemma inSegment_zeroCalls (hc : c ∈ zeroCalls ph i) : InSegment ph c := by
  induction i using zeroCalls.induct ph with
  | case1 i hi ih =>
    rw [zeroCalls, if_pos hi, List.mem_cons] at hc
    rcases hc with rfl | hc
    · exact ⟨rfl, i, hi, rfl⟩
    · exact ih hc
  | case2 i hi =>
    rw [zeroCalls, if_neg hi] at hc
    exact absurd hc List.not_mem_nil

lemma inSegment_fileCalls (hsize : ph.filesz.toNat ≤ ph.memsz.toNat) (hc : c ∈ fileCalls ph bin i) :
    InSegment ph c := by
  induction i using fileCalls.induct ph with
  | case1 i hi ih =>
    rw [fileCalls, if_pos hi, List.mem_cons] at hc
    rcases hc with rfl | hc
    · exact ⟨rfl, i, by omega, rfl⟩
    · exact ih hc
  | case2 i hi =>
    rw [fileCalls, if_neg hi] at hc
    exact inSegment_zeroCalls hc

/-- A call is for a byte of the segment, or for the first page. -/
lemma mem_segCalls (hsize : ph.filesz.toNat ≤ ph.memsz.toNat) (hc : c ∈ segCalls ph bin) :
    InSegment ph c ∨ (c.perm = ph.perm ∧ c.va = ph.vaddr ∧ ph.offset ≠ 0) := by
  unfold segCalls at hc
  split_ifs at hc with hoff
  · rcases List.mem_cons.mp hc with rfl | hc
    · exact Or.inr ⟨rfl, rfl, hoff⟩
    · exact Or.inl (inSegment_fileCalls hsize hc)
  · exact Or.inl (inSegment_fileCalls hsize hc)

lemma length_zeroCalls (ph : Phdr) (i : ℕ) :
    (zeroCalls ph i).length = (ph.memsz.toNat - i + 4095) / 4096 := by
  induction i using zeroCalls.induct ph with
  | case1 i hi ih =>
    rw [zeroCalls, if_pos hi, List.length_cons, ih]
    omega
  | case2 i hi =>
    rw [zeroCalls, if_neg hi, List.length_nil]
    omega

lemma length_fileCalls (bin : ℕ → BitVec 8) (hsize : ph.filesz.toNat ≤ ph.memsz.toNat) (i : ℕ) :
    (fileCalls ph bin i).length = (ph.memsz.toNat - i + 4095) / 4096 := by
  induction i using fileCalls.induct ph with
  | case1 i hi ih =>
    rw [fileCalls, if_pos hi, List.length_cons, ih]
    omega
  | case2 i hi =>
    rw [fileCalls, if_neg hi, length_zeroCalls]

/-- One call for each page of the segment, and one more at most. -/
lemma length_segCalls (bin : ℕ → BitVec 8) (hsize : ph.filesz.toNat ≤ ph.memsz.toNat) :
    (segCalls ph bin).length ≤ ph.memsz.toNat / 4096 + 2 := by
  unfold segCalls
  split_ifs
  · rw [List.length_cons, length_fileCalls bin hsize]
    omega
  · rw [length_fileCalls bin hsize]
    omega

end Addresses

/-! ## The space -/

/-- An address space: the bytes of every page that is mapped. -/
abbrev ByteSpace := ℕ → Option (ℕ → BitVec 8)

/-- The byte at an address. -/
def ByteSpace.byteAt (S : ByteSpace) (a : ℕ) : Option (BitVec 8) :=
  (S (a / 4096)).map (· (a % 4096))

/-- The page that a call of the mapper makes. -/
def callPage (c : MapperCall) (o : ℕ) : BitVec 8 :=
  match c.src with
  | none => 0
  | some bytes => if o < c.offset then 0 else bytes.getD (o - c.offset) 0

/-- A call of the mapper: a new page replaces the one of the address. -/
def mapCall (S : ByteSpace) (c : MapperCall) : ByteSpace :=
  Function.update S (c.va.toNat / 4096) (some (callPage c))

lemma byteAt_mapCall (S : ByteSpace) (c : MapperCall) (a : ℕ) : (mapCall S c).byteAt a =
    if a / 4096 = c.va.toNat / 4096 then some (callPage c (a % 4096)) else S.byteAt a := by
  unfold ByteSpace.byteAt mapCall
  split_ifs with h
  · rw [h, Function.update_self]
    rfl
  · rw [Function.update_of_ne h]

/-- Byte `j` of a segment: a byte of the file, or 0. -/
def segByte (ph : Phdr) (bin : ℕ → BitVec 8) (j : ℕ) : BitVec 8 :=
  if j < ph.filesz.toNat then bin j else 0

/-- The first `i` bytes of the segment are in the space. -/
def LoadedTo (ph : Phdr) (bin : ℕ → BitVec 8) (S : ByteSpace) (i : ℕ) : Prop :=
  ∀ j < ph.memsz.toNat, j < i → S.byteAt (ph.vaddr.toNat + j) = some (segByte ph bin j)

/-- The segment is in the space. -/
def Loaded (ph : Phdr) (bin : ℕ → BitVec 8) (S : ByteSpace) : Prop :=
  ∀ j < ph.memsz.toNat, S.byteAt (ph.vaddr.toNat + j) = some (segByte ph bin j)

variable {ph : Phdr} {bin : ℕ → BitVec 8} {S : ByteSpace} {i : ℕ}

lemma getD_bytesFrom (i n o : ℕ) :
    (bytesFrom bin i n).getD o 0 = if o < n then bin (i + o) else 0 := by
  rw [bytesFrom, List.getD_eq_getElem?_getD, List.getElem?_map]
  split_ifs with ho
  · rw [List.getElem?_range ho]
    rfl
  · rw [List.getElem?_eq_none (by simpa using ho)]
    rfl

section Calls

variable (hwrap : ph.vaddr.toNat + ph.memsz.toNat ≤ 2 ^ 32)

include hwrap

lemma toNat_vaddr_add (hi : i < ph.memsz.toNat) :
    (ph.vaddr + BitVec.ofNat 32 i).toNat = ph.vaddr.toNat + i := by
  rw [BitVec.toNat_add, BitVec.toNat_ofNat]
  omega

omit hwrap in
/-- A page of the segment is loaded. -/
lemma LoadedTo.mapCall {c : MapperCall} (h : LoadedTo ph bin S i)
    (hva : c.va.toNat = ph.vaddr.toNat + i) (halign : (ph.vaddr.toNat + i) % 4096 = 0)
    (hpage : ∀ o < 4096, callPage c o = segByte ph bin (i + o)) :
    LoadedTo ph bin (mapCall S c) (i + 4096) := by
  intro j hj hlt
  rw [byteAt_mapCall, hva]
  split_ifs with hp
  · have hmod : (ph.vaddr.toNat + j) % 4096 < 4096 := Nat.mod_lt _ (by decide)
    have hj' : i + (ph.vaddr.toNat + j) % 4096 = j := by omega
    rw [hpage _ hmod, hj']
  · exact h j hj (by omega)

/-- Step 2 from a page boundary on. -/
lemma loaded_zeroCalls (halign : (ph.vaddr.toNat + i) % 4096 = 0) (hfile : ph.filesz.toNat ≤ i)
    (h : LoadedTo ph bin S i) : Loaded ph bin ((zeroCalls ph i).foldl mapCall S) := by
  induction i using zeroCalls.induct ph generalizing S with
  | case1 i hi ih =>
    rw [zeroCalls, if_pos hi, List.foldl_cons]
    refine ih (by omega) (by omega) (h.mapCall (toNat_vaddr_add hwrap hi) halign ?_)
    intro o _
    rw [segByte, if_neg (by omega)]
    rfl
  | case2 i hi =>
    rw [zeroCalls, if_neg hi]
    exact fun j hj => h j hj (by omega)

/-- Steps 1 and 2 from a page boundary on. -/
lemma loaded_fileCalls (hsize : ph.filesz.toNat ≤ ph.memsz.toNat)
    (halign : (ph.vaddr.toNat + i) % 4096 = 0)
    (h : LoadedTo ph bin S i) : Loaded ph bin ((fileCalls ph bin i).foldl mapCall S) := by
  induction i using fileCalls.induct ph generalizing S with
  | case1 i hi ih =>
    rw [fileCalls, if_pos hi, List.foldl_cons]
    refine ih (by omega) (h.mapCall (toNat_vaddr_add hwrap (hi.trans_le hsize)) halign ?_)
    intro o ho
    change (if o < 0 then 0 else (bytesFrom bin i _).getD (o - 0) 0) = _
    rw [if_neg (Nat.not_lt_zero o), getD_bytesFrom, segByte]
    split_ifs <;> first | rfl | omega
  | case2 i hi =>
    rw [fileCalls, if_neg hi]
    exact loaded_zeroCalls hwrap halign (by omega) h

/-- What step 2 leaves at an address: it makes a page of zeros for every 4096 bytes, from the page
of byte `i` on. -/
lemma byteAt_zeroCalls (S : ByteSpace) (i a : ℕ) : ((zeroCalls ph i).foldl mapCall S).byteAt a =
    if (ph.vaddr.toNat + i) / 4096 ≤ a / 4096 ∧
        a / 4096 < (ph.vaddr.toNat + i) / 4096 + (ph.memsz.toNat - i + 4095) / 4096
    then some 0 else S.byteAt a := by
  induction i using zeroCalls.induct ph generalizing S with
  | case1 i hi ih =>
    rw [zeroCalls, if_pos hi, List.foldl_cons, ih, byteAt_mapCall]
    have hva : (zeroCall ph i).va.toNat = ph.vaddr.toNat + i := toNat_vaddr_add hwrap hi
    rw [hva]
    have hzero : callPage (zeroCall ph i) (a % 4096) = 0 := rfl
    rw [hzero]
    split_ifs <;> first | rfl | omega
  | case2 i hi =>
    rw [zeroCalls, if_neg hi, List.foldl_nil, if_neg (by omega)]

end Calls

/-- What the first call leaves in its page, from the first byte of the segment on. -/
lemma byteAt_firstCall (S : ByteSpace) {j : ℕ} (hj : ph.offset + j < 4096) :
    (mapCall S (firstCall ph bin)).byteAt (ph.vaddr.toNat + j) =
      some (if j < ph.firstLen then bin j else 0) := by
  unfold Phdr.offset at hj
  have hpage : (ph.vaddr.toNat + j) / 4096 = (firstCall ph bin).va.toNat / 4096 := by
    change _ = ph.vaddr.toNat / 4096
    omega
  have hmod : (ph.vaddr.toNat + j) % 4096 = ph.vaddr.toNat % 4096 + j := by omega
  rw [byteAt_mapCall, if_pos hpage, hmod]
  change some (if ph.vaddr.toNat % 4096 + j < ph.vaddr.toNat % 4096 then 0
    else (bytesFrom bin 0 _).getD (ph.vaddr.toNat % 4096 + j - ph.vaddr.toNat % 4096) 0) = _
  rw [if_neg (by omega), Nat.add_sub_cancel_left, getD_bytesFrom, Nat.zero_add]

/-- The mapper of a space: it always finds a page. -/
def pageMapper (S : ByteSpace) (c : MapperCall) : Kernel (Word × ByteSpace) := pure (0, mapCall S c)

lemma runCalls_pageMapper (l : List MapperCall) (S : ByteSpace) :
    runCalls pageMapper l S = .ok (0, l.foldl mapCall S) := by
  induction l generalizing S with
  | nil => rfl
  | cons c l ih =>
    rw [runCalls, List.foldl_cons, ← ih]
    rfl

/-- The condition: the segment starts with a page, or its bytes of the file go to the end of the
first page, or no byte follows them. Otherwise step 2 replaces the first page by zeros, and a last
page may be left out. -/
def SegmentFits (ph : Phdr) (bin : ℕ → BitVec 8) (S : ByteSpace) : Prop :=
  ph.offset = 0 ∨ 4096 ≤ ph.offset + ph.filesz.toNat ∨ ph.filesz = ph.memsz ∨
    ((∀ j < ph.filesz.toNat, bin j = 0) ∧ ∀ j < ph.memsz.toNat,
      (ph.memsz.toNat - ph.filesz.toNat + 4095) / 4096 * 4096 ≤ ph.offset + j →
        S.byteAt (ph.vaddr.toNat + j) = some 0)

/-- Step 2 replaces the first page. -/
lemma loaded_replaced_iff (hwrap : ph.vaddr.toNat + ph.memsz.toNat ≤ 2 ^ 32)
    (hshort : ph.offset + ph.filesz.toNat < 4096) (hlt : ph.filesz.toNat < ph.memsz.toNat) :
    Loaded ph bin ((zeroCalls ph ph.filesz.toNat).foldl mapCall (mapCall S (firstCall ph bin))) ↔
      (∀ j < ph.filesz.toNat, bin j = 0) ∧ ∀ j < ph.memsz.toNat,
        (ph.memsz.toNat - ph.filesz.toNat + 4095) / 4096 * 4096 ≤ ph.offset + j →
          S.byteAt (ph.vaddr.toNat + j) = some 0 := by
  unfold Phdr.offset at hshort ⊢
  have hpage : (ph.vaddr.toNat + ph.filesz.toNat) / 4096 = ph.vaddr.toNat / 4096 := by omega
  -- an address of the segment is in a page of step 2, or behind them
  have hbyte : ∀ j, ((zeroCalls ph ph.filesz.toNat).foldl mapCall
      (mapCall S (firstCall ph bin))).byteAt (ph.vaddr.toNat + j) =
      if ph.vaddr.toNat % 4096 + j < (ph.memsz.toNat - ph.filesz.toNat + 4095) / 4096 * 4096
      then some 0 else S.byteAt (ph.vaddr.toNat + j) := fun j => by
    rw [byteAt_zeroCalls hwrap, hpage, byteAt_mapCall]
    have hva : (firstCall ph bin).va = ph.vaddr := rfl
    rw [hva]
    split_ifs <;> first | rfl | omega
  constructor
  · intro h
    refine ⟨fun j hj => ?_, fun j hj hle => ?_⟩
    · have hjb := h j (by omega)
      rw [hbyte, if_pos (by omega), Option.some.injEq, segByte, if_pos hj] at hjb
      exact hjb.symm
    · have hjb := h j hj
      rwa [hbyte, if_neg (by omega), segByte, if_neg (by omega)] at hjb
  · rintro ⟨hzero, hrest⟩ j hj
    rw [hbyte, segByte]
    split_ifs with h1 h2 h2
    · rw [hzero j h2]
    · rfl
    · omega
    · exact hrest j hj (by omega)

/-- **The segment is in the space** after the calls if and only if the condition holds. -/
theorem loaded_segCalls_iff (S : ByteSpace) (hsize : ph.filesz.toNat ≤ ph.memsz.toNat)
    (hwrap : ph.vaddr.toNat + ph.memsz.toNat ≤ 2 ^ 32) :
    Loaded ph bin ((segCalls ph bin).foldl mapCall S) ↔ SegmentFits ph bin S := by
  unfold segCalls Phdr.start
  by_cases hoff : ph.offset = 0
  · have halign : (ph.vaddr.toNat + 0) % 4096 = 0 := hoff
    rw [if_neg (not_not.mpr hoff), if_neg (not_not.mpr hoff)]
    refine iff_of_true (loaded_fileCalls hwrap hsize halign fun j _ hj => ?_) (Or.inl hoff)
    exact absurd hj (Nat.not_lt_zero j)
  rw [if_pos hoff, if_pos hoff, List.foldl_cons]
  by_cases hfill : 4096 ≤ ph.offset + ph.filesz.toNat
  · have hlen : ph.firstLen = 4096 - ph.offset := Nat.min_eq_right (by omega)
    have halign : (ph.vaddr.toNat + (4096 - ph.offset)) % 4096 = 0 := by
      unfold Phdr.offset
      omega
    refine iff_of_true ?_ (Or.inr (Or.inl hfill))
    rw [hlen]
    refine loaded_fileCalls hwrap hsize halign fun j _ hj => ?_
    rw [byteAt_firstCall S (by omega), hlen, if_pos hj, segByte, if_pos (by omega)]
  · have hlen : ph.firstLen = ph.filesz.toNat := Nat.min_eq_left (by omega)
    rw [hlen, fileCalls, if_neg (lt_irrefl _)]
    rcases hsize.eq_or_lt with heq | hlt
    · have heq' : ph.filesz = ph.memsz := BitVec.eq_of_toNat_eq heq
      refine iff_of_true (fun j hj => ?_) (Or.inr (Or.inr (Or.inl heq')))
      rw [zeroCalls, if_neg (by omega), List.foldl_nil, byteAt_firstCall S (by omega), hlen,
        segByte]
    · have hne : ph.filesz ≠ ph.memsz := fun h => by
        rw [h] at hlt
        exact lt_irrefl _ hlt
      rw [loaded_replaced_iff hwrap (by omega) hlt, SegmentFits, or_iff_right hoff,
        or_iff_right hfill, or_iff_right hne]

end MosVolca
