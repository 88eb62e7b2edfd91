import MosVolca.Kern.Leaks
import MosVolca.Kern.LoadSegment
import MosVolca.User.SpawnHeader

/-!
# The program of a new environment

`load_icode` goes through the program headers of a binary, and `env_create` makes an environment with
the program. At boot `mips_init` makes several environments, one after the other. Each of them has in
its memory what the segments of its binary say, and nothing else, also when the others have been made.

## Main definitions

* `MosVolca.loadIcodeElf`, `MosVolca.envCreateElf` — `load_icode` and `env_create` for the bytes of a
  binary.
* `MosVolca.segments` — the segments that are loaded.
* `MosVolca.HasProgram` — a space with the segments and nothing else.
* `MosVolca.Binary.Linkable` — the binaries that are loaded as they say.

## Main results

* `MosVolca.byteAt_segCalls` — what one segment leaves in a space.
* `MosVolca.hasProgram_foldl` — the calls for all segments leave the program.
* `MosVolca.EnvSpaces.envCreateElf` — one environment.
* `MosVolca.createAll_programs` — the environments that are made at boot have their programs.
-/

namespace MosVolca

open TwoLevel

/-! ## The functions -/

/-- The bytes of the binary from `i` on. -/
def ElfBuf.from (bin : ElfBuf) (i : ℕ) : ElfBuf := fun j => bin (i + j)

/-- `e_entry`. -/
def eEntry (b : ElfBuf) : Word := ehdrWord b 24
/-- `p_offset`. -/
def pOffset (b : ElfBuf) : Word := ehdrWord b 4
/-- `p_vaddr`, `p_filesz`, `p_memsz` and `p_flags`. -/
def phdrOf (b : ElfBuf) : Phdr := ⟨ehdrWord b 8, ehdrWord b 16, ehdrWord b 20, ehdrWord b 24⟩

section Functions

variable (M : Machine) (e : EnvPtr) (bin : ElfBuf)

/-- A round of the loop of `load_icode`. -/
def loadPhdr (k : Kern) (phOff : Word) : Kernel Kern :=
  let ph := bin.from phOff.toNat
  if pType ph = ptLoad then do
    let (r, k) ← elfLoadSeg (fun k c => loadIcodeMapper M k e c) (phdrOf ph)
      (bin.from (pOffset ph).toNat) k
    if r ≠ 0 then throw (.panic "'elf_load_seg' returned") else pure k
  else pure k

/-- The rounds of the loop that are left. -/
def loadPhdrs : ℕ → Word → Kern → Kernel Kern
  | 0, _, k => pure k
  | n + 1, phOff, k => do
    let k ← loadPhdr M e bin k phOff
    loadPhdrs n (phOff + BitVec.ofNat 32 (ePhentsize bin)) k

/-- `load_icode`. -/
def loadIcodeElf (k : Kern) (size : ℕ) : Kernel Kern :=
  if ehdrSize.toNat ≤ size ∧ elfFrom bin then do
    let k ← loadPhdrs M e bin (ePhnum bin) (ePhoff bin) k
    pure (k.setEnv e fun x => { x with tf := { x.tf with cp0Epc := eEntry bin } })
  else throw (.panic "bad elf")

end Functions

/-- The arguments of `env_create`. -/
structure Binary where
  bin : ElfBuf
  size : ℕ
  priority : Word

/-- `env_create`. -/
def envCreateElf (M : Machine) (k : Kern) (b : Binary) : Kernel (EnvPtr × Kern) := do
  match ← envAlloc M k 0 with
  | (.error _, _) => throw .nullAccess
  | (.ok e, k) =>
    let k := k.setEnv e fun x => { x with pri := b.priority, status := .runnable }
    let k ← loadIcodeElf M e b.bin k b.size
    pure (e, { k with envSchedList := k.envSchedList.insertHead e })

/-- The calls of `ENV_CREATE_PRIORITY`, one after the other. -/
def createAll (M : Machine) : Kern → List Binary → Kernel (List EnvPtr × Kern)
  | k, [] => pure ([], k)
  | k, b :: rest => do
    let (e, k) ← envCreateElf M k b
    let (es, k) ← createAll M k rest
    pure (e :: es, k)

/-! ## The segments -/

/-- A segment: its header, and the bytes of the binary from its offset on. -/
structure Loadable where
  ph : Phdr
  bin : ElfBuf

/-- The segments of the entries of the table that are left. -/
def segmentsAt (bin : ElfBuf) : ℕ → Word → List Loadable
  | 0, _ => []
  | n + 1, phOff =>
    let ph := bin.from phOff.toNat
    let rest := segmentsAt bin n (phOff + BitVec.ofNat 32 (ePhentsize bin))
    if pType ph = ptLoad then ⟨phdrOf ph, bin.from (pOffset ph).toNat⟩ :: rest else rest

/-- The segments that are loaded. -/
def segments (bin : ElfBuf) : List Loadable := segmentsAt bin (ePhnum bin) (ePhoff bin)

/-- The calls of the mapper for the segments. -/
def callsOf (segs : List Loadable) : List MapperCall := segs.flatMap fun s => segCalls s.ph s.bin

/-- What the loader does with a binary. -/
def Binary.image (b : Binary) : Option Image :=
  if ehdrSize.toNat ≤ b.size ∧ elfFrom b.bin then some ⟨callsOf (segments b.bin), eEntry b.bin⟩
  else none

section Rounds

variable {M : Machine} {e : EnvPtr} {bin : ElfBuf}

/-- A call whose result is checked at once. -/
def checkedCall (M : Machine) (e : EnvPtr) (k : Kern) (c : MapperCall) : Kernel Kern := do
  let (r, k) ← loadIcodeMapper M k e c
  if r ≠ 0 then throw (.panic "'elf_load_seg' returned") else pure k

/-- The result of `elf_load_seg` is that of the last call, so that it may be checked after each. -/
lemma runCalls_checked (l : List MapperCall) (k : Kern) :
    (do
      let (r, k) ← runCalls (fun k c => loadIcodeMapper M k e c) l k
      if r ≠ 0 then throw (.panic "'elf_load_seg' returned") else pure k) =
      l.foldlM (checkedCall M e) k := by
  induction l generalizing k with
  | nil => rfl
  | cons c l ih =>
    rw [runCalls, List.foldlM_cons, checkedCall]
    cases hc : loadIcodeMapper M k e c with
    | error x => rfl
    | ok x =>
      obtain ⟨r, k1⟩ := x
      simp only [ok_bind]
      split_ifs with hr
      · rw [pure_eq_ok, ok_bind]
        exact if_pos hr
      · exact ih k1

/-- The rounds make the calls for the segments. -/
lemma loadPhdrs_eq (n : ℕ) (phOff : Word) (k : Kern) :
    loadPhdrs M e bin n phOff k = (callsOf (segmentsAt bin n phOff)).foldlM (checkedCall M e) k := by
  induction n generalizing phOff k with
  | zero => rfl
  | succ n ih =>
    rw [loadPhdrs, segmentsAt, loadPhdr]
    simp only
    split_ifs with hload
    · rw [callsOf, List.flatMap_cons, List.foldlM_append, ← runCalls_checked]
      simp only [elfLoadSeg_eq, ih]
      rfl
    · rw [pure_eq_ok, ok_bind]
      exact ih _ k

/-- `load_icode` does with the bytes of a binary what its image says. -/
theorem loadIcodeElf_eq (b : Binary) (k : Kern) :
    loadIcodeElf M e b.bin k b.size = loadIcode M k e b.image := by
  unfold loadIcodeElf Binary.image
  split_ifs
  · rw [loadPhdrs_eq]
    rfl
  · rfl

lemma envCreateElf_eq (b : Binary) (k : Kern) :
    envCreateElf M k b = envCreate M k b.image b.priority := by
  unfold envCreateElf envCreate
  refine bind_congr fun x => ?_
  obtain ⟨r | e, k1⟩ := x
  · rfl
  · simp only [loadIcodeElf_eq]

end Rounds

/-! ## What a segment leaves in a space -/

namespace Loadable

/-- A byte of the segment is in the page. -/
def Covers (s : Loadable) (v : ℕ) : Prop :=
  s.ph.vaddr.toNat / 4096 ≤ v ∧ v * 4096 < s.ph.vaddr.toNat + s.ph.memsz.toNat

instance (s : Loadable) (v : ℕ) : Decidable (s.Covers v) := by
  unfold Covers
  infer_instance

/-- What the segment has at an address of its pages. -/
def byte (s : Loadable) (a : ℕ) : BitVec 8 :=
  if s.ph.vaddr.toNat ≤ a then segByte s.ph s.bin (a - s.ph.vaddr.toNat) else 0

/-- **A segment of user space that is loaded as it says**: it starts with a page, or its bytes of the
file go to the end of its first page, or there are no others. -/
structure Regular (s : Loadable) : Prop where
  size : s.ph.filesz.toNat ≤ s.ph.memsz.toNat
  user : s.ph.vaddr.toNat + s.ph.memsz.toNat ≤ utop.toNat
  whole : s.ph.offset = 0 ∨ 4096 ≤ s.ph.offset + s.ph.filesz.toNat ∨ s.ph.filesz = s.ph.memsz

end Loadable

section Space

variable {s : Loadable} {ph : Phdr} {bin : ElfBuf} {S : ByteSpace} {a i : ℕ}

/-- What a call with bytes of the file leaves in its page. -/
lemma callPage_fileCall (hi : i < ph.filesz.toNat) {o : ℕ} (ho : o < 4096) :
    callPage (fileCall ph bin i) o = segByte ph bin (i + o) := by
  show (if o < 0 then 0 else (bytesFrom bin i _).getD (o - 0) 0) = _
  rw [if_neg (Nat.not_lt_zero o), getD_bytesFrom, segByte]
  split_ifs <;> first | rfl | omega

/-- Steps 1 and 2 from a page boundary on. -/
lemma byteAt_fileCalls (hwrap : ph.vaddr.toNat + ph.memsz.toNat ≤ 2 ^ 32)
    (hsize : ph.filesz.toNat ≤ ph.memsz.toNat) (halign : (ph.vaddr.toNat + i) % 4096 = 0)
    (S : ByteSpace) (a : ℕ) : ((fileCalls ph bin i).foldl mapCall S).byteAt a =
      if (ph.vaddr.toNat + i) / 4096 ≤ a / 4096 ∧
          a / 4096 * 4096 < ph.vaddr.toNat + ph.memsz.toNat
      then some (Loadable.byte ⟨ph, bin⟩ a) else S.byteAt a := by
  induction i using fileCalls.induct ph generalizing S with
  | case1 i hi ih =>
    have hva : (fileCall ph bin i).va.toNat = ph.vaddr.toNat + i :=
      toNat_vaddr_add hwrap (hi.trans_le hsize)
    rw [fileCalls, if_pos hi, List.foldl_cons, ih (by omega), byteAt_mapCall, hva]
    have hmod : a % 4096 < 4096 := Nat.mod_lt a (by decide)
    by_cases hpage : a / 4096 = (ph.vaddr.toNat + i) / 4096
    · have ha : a - ph.vaddr.toNat = i + a % 4096 := by omega
      rw [if_neg (by omega), if_pos hpage, if_pos (by omega), callPage_fileCall hi hmod,
        Loadable.byte, if_pos (by show ph.vaddr.toNat ≤ a; omega)]
      exact congrArg (fun j => some (segByte ph bin j)) ha.symm
    · rw [if_neg hpage]
      split_ifs <;> first | rfl | omega
  | case2 i hi =>
    rw [fileCalls, if_neg hi, byteAt_zeroCalls hwrap]
    have hzero : (ph.vaddr.toNat + i) / 4096 ≤ a / 4096 → Loadable.byte ⟨ph, bin⟩ a = 0 := by
      intro hle
      rw [Loadable.byte, if_pos (by show ph.vaddr.toNat ≤ a; omega), segByte]
      exact if_neg (by show ¬ a - ph.vaddr.toNat < ph.filesz.toNat; omega)
    split_ifs with h1 h2 h2
    · rw [hzero h2.1]
    · omega
    · omega
    · rfl

/-- What the first call leaves. -/
lemma byteAt_firstCall_page (S : ByteSpace)
    (hin : a % 4096 < ph.offset + ph.firstLen ∨ ph.filesz.toNat ≤ ph.firstLen) :
    (mapCall S (firstCall ph bin)).byteAt a =
      if a / 4096 = ph.vaddr.toNat / 4096 then some (Loadable.byte ⟨ph, bin⟩ a) else S.byteAt a := by
  rw [byteAt_mapCall]
  show (if a / 4096 = ph.vaddr.toNat / 4096 then some (callPage (firstCall ph bin) (a % 4096)) else _) = _
  split_ifs with hpage
  · show some (if a % 4096 < ph.vaddr.toNat % 4096 then 0
      else (bytesFrom bin 0 ph.firstLen).getD (a % 4096 - ph.vaddr.toNat % 4096) 0) = _
    unfold Loadable.byte
    simp only
    unfold Phdr.offset at hin
    have hlen : ph.firstLen ≤ ph.filesz.toNat := Nat.min_le_left _ _
    by_cases hlow : a % 4096 < ph.vaddr.toNat % 4096
    · rw [if_pos hlow, if_neg (by omega)]
    · have ha : a - ph.vaddr.toNat = a % 4096 - ph.vaddr.toNat % 4096 := by omega
      rw [if_neg hlow, if_pos (by omega), getD_bytesFrom, segByte, ha, Nat.zero_add]
      split_ifs <;> first | rfl | omega
  · rfl

/-- **What a segment leaves in a space**: its pages, with its bytes and zeros around them. -/
theorem byteAt_segCalls (hs : s.Regular) (S : ByteSpace) (a : ℕ) :
    ((segCalls s.ph s.bin).foldl mapCall S).byteAt a =
      if s.Covers (a / 4096) then some (s.byte a) else S.byteAt a := by
  obtain ⟨ph, bin⟩ := s
  obtain ⟨hsize, huser, hwhole⟩ := hs
  simp only at hsize huser hwhole ⊢
  have hwrap : ph.vaddr.toNat + ph.memsz.toNat ≤ 2 ^ 32 := by
    have := utop_toNat
    omega
  have hiff : Loadable.Covers ⟨ph, bin⟩ (a / 4096) ↔ ph.vaddr.toNat / 4096 ≤ a / 4096 ∧
      a / 4096 * 4096 < ph.vaddr.toNat + ph.memsz.toNat := Iff.rfl
  simp only [hiff]
  unfold segCalls Phdr.start
  by_cases hoff : ph.offset = 0
  · rw [if_neg (not_not.mpr hoff), if_neg (not_not.mpr hoff)]
    exact byteAt_fileCalls hwrap hsize hoff S a
  rw [if_pos hoff, if_pos hoff, List.foldl_cons]
  have hlen : ph.firstLen = min ph.filesz.toNat (4096 - ph.offset) := rfl
  have hlt : ph.offset < 4096 := Nat.mod_lt _ (by decide)
  have hdiv : 4096 * (ph.vaddr.toNat / 4096) + ph.offset = ph.vaddr.toNat := Nat.div_add_mod _ _
  have hmod : a % 4096 < 4096 := Nat.mod_lt a (by decide)
  by_cases hfill : 4096 ≤ ph.offset + ph.filesz.toNat
  · -- the file fills the first page
    have hstart : ph.firstLen = 4096 - ph.offset := by omega
    have hnext : (ph.vaddr.toNat + ph.firstLen) / 4096 = ph.vaddr.toNat / 4096 + 1 := by omega
    have halign : (ph.vaddr.toNat + ph.firstLen) % 4096 = 0 := by omega
    rw [byteAt_fileCalls hwrap hsize halign, byteAt_firstCall_page S (.inl (by omega)), hnext]
    split_ifs <;> first | rfl | omega
  · -- there is one page only
    have heq : ph.filesz = ph.memsz := (hwhole.resolve_left hoff).resolve_left hfill
    have hstart : ph.firstLen = ph.filesz.toNat := by omega
    rw [hstart, fileCalls, if_neg (lt_irrefl _), heq, zeroCalls, if_neg (lt_irrefl _), List.foldl_nil,
      byteAt_firstCall_page S (.inr hstart.ge)]
    rw [heq] at hfill
    split_ifs <;> first | rfl | omega

end Space

/-! ## The program -/

/-- No page has bytes of both segments. -/
def Loadable.Apart (s s' : Loadable) : Prop := ∀ v, s.Covers v → ¬ s'.Covers v

/-- **A space with the segments and nothing else**: the bytes of the segments, zeros in the rest of
their pages, and no other page. -/
structure HasProgram (segs : List Loadable) (S : ByteSpace) : Prop where
  loaded : ∀ s ∈ segs, Loaded s.ph s.bin S
  around : ∀ s ∈ segs, ∀ a, s.Covers (a / 4096) →
    a < s.ph.vaddr.toNat ∨ s.ph.vaddr.toNat + s.ph.memsz.toNat ≤ a → S.byteAt a = some 0
  only : ∀ v, v * 4096 < utop.toNat → (∀ s ∈ segs, ¬ s.Covers v) → S v = none

/-- **A binary that is linked as the loader needs it.** -/
structure Binary.Linkable (b : Binary) : Prop where
  header : ehdrSize.toNat ≤ b.size ∧ elfFrom b.bin
  regular : ∀ s ∈ segments b.bin, s.Regular
  apart : (segments b.bin).Pairwise Loadable.Apart

/-- The pages that are enough for an environment with the program. -/
def Binary.pages (b : Binary) : ℕ :=
  ((segments b.bin).map fun s => 2 * (s.ph.memsz.toNat / 4096 + 2)).sum + 1

section Program

variable {segs : List Loadable} {S S' : ByteSpace} {b : Binary}

/-- What the segments leave in a space, where no page is in two of them. -/
lemma byteAt_callsOf (hreg : ∀ s ∈ segs, s.Regular) (hapart : segs.Pairwise Loadable.Apart)
    (S : ByteSpace) (a : ℕ) :
    (∀ s ∈ segs, s.Covers (a / 4096) →
        ((callsOf segs).foldl mapCall S).byteAt a = some (s.byte a)) ∧
      ((∀ s ∈ segs, ¬ s.Covers (a / 4096)) →
        ((callsOf segs).foldl mapCall S).byteAt a = S.byteAt a) := by
  induction segs generalizing S with
  | nil => exact ⟨fun s hs => absurd hs List.not_mem_nil, fun _ => rfl⟩
  | cons s segs ih =>
    obtain ⟨hhead, htail⟩ := List.pairwise_cons.mp hapart
    have hone := byteAt_segCalls (hreg s List.mem_cons_self) S a
    obtain ⟨hin, hout⟩ := ih (fun s' hs' => hreg s' (List.mem_cons_of_mem s hs')) htail
      ((segCalls s.ph s.bin).foldl mapCall S)
    have hsplit : (callsOf (s :: segs)).foldl mapCall S =
        (callsOf segs).foldl mapCall ((segCalls s.ph s.bin).foldl mapCall S) := by
      rw [callsOf, List.flatMap_cons, List.foldl_append]
      rfl
    rw [hsplit]
    constructor
    · intro s' hs' hc
      rcases List.mem_cons.mp hs' with rfl | hs'
      · rw [hout fun s'' hs'' hc'' => hhead s'' hs'' _ hc hc'', hone, if_pos hc]
      · exact hin s' hs' hc
    · intro hno
      rw [hout fun s' hs' => hno s' (List.mem_cons_of_mem s hs'), hone,
        if_neg (hno s List.mem_cons_self)]

/-- An address of a segment is in one of its pages. -/
lemma Loadable.covers_of_lt {s : Loadable} {j : ℕ} (hj : j < s.ph.memsz.toNat) :
    s.Covers ((s.ph.vaddr.toNat + j) / 4096) := by
  unfold Covers
  omega

/-- **The calls for all segments leave the program** in a space that has been empty below `UTOP`. -/
theorem hasProgram_foldl (hreg : ∀ s ∈ segs, s.Regular) (hapart : segs.Pairwise Loadable.Apart)
    (hempty : ∀ v, v * 4096 < utop.toNat → S v = none) :
    HasProgram segs ((callsOf segs).foldl mapCall S) where
  loaded := by
    intro s hs j hj
    rw [(byteAt_callsOf hreg hapart S _).1 s hs (Loadable.covers_of_lt hj), Loadable.byte,
      if_pos (Nat.le_add_right _ _), Nat.add_sub_cancel_left]
  around := by
    intro s hs a hc hout
    have hsize := (hreg s hs).size
    rw [(byteAt_callsOf hreg hapart S _).1 s hs hc, Loadable.byte, segByte]
    split_ifs <;> first | rfl | omega
  only := by
    intro v hv hno
    have hdiv : v * 4096 / 4096 = v := Nat.mul_div_cancel v (by decide)
    have hbyte := (byteAt_callsOf hreg hapart S (v * 4096)).2 (by rwa [hdiv])
    unfold ByteSpace.byteAt at hbyte
    rw [hdiv, hempty v hv] at hbyte
    exact Option.map_eq_none_iff.mp hbyte

/-- The program is below `UTOP`. -/
lemma HasProgram.congr (h : HasProgram segs S) (hreg : ∀ s ∈ segs, s.Regular)
    (hsame : SameUser S' S) : HasProgram segs S' where
  loaded := by
    intro s hs j hj
    have huser := (hreg s hs).user
    have hcov := (Loadable.covers_of_lt hj).2
    rw [← h.loaded s hs j hj, ByteSpace.byteAt, ByteSpace.byteAt, hsame _ (by omega)]
  around := by
    intro s hs a hc hout
    have huser := (hreg s hs).user
    have hcov := hc.2
    rw [← h.around s hs a hc hout, ByteSpace.byteAt, ByteSpace.byteAt, hsame _ (by omega)]
  only := by
    intro v hv hno
    rw [hsame v hv, h.only v hv hno]

/-- The calls are for pages below `UTOP`. -/
lemma mem_callsOf (hreg : ∀ s ∈ segs, s.Regular) {c : MapperCall} (hc : c ∈ callsOf segs) :
    c.va < utop ∧ c.perm < 4096#32 := by
  obtain ⟨s, hs, hc⟩ := List.mem_flatMap.mp hc
  exact segCalls_user (hreg s hs).size (hreg s hs).user hc

/-- Two pages for each call are enough. -/
lemma length_callsOf (hreg : ∀ s ∈ segs, s.Regular) : 2 * (callsOf segs).length ≤
    (segs.map fun s => 2 * (s.ph.memsz.toNat / 4096 + 2)).sum := by
  induction segs with
  | nil => exact Nat.le_refl 0
  | cons s segs ih =>
    have hone := length_segCalls s.bin (hreg s List.mem_cons_self).size
    have hrest := ih fun s' hs' => hreg s' (List.mem_cons_of_mem s hs')
    rw [List.map_cons, List.sum_cons, callsOf, List.flatMap_cons, List.length_append]
    unfold callsOf at hrest
    omega

lemma Binary.Linkable.image (hb : b.Linkable) :
    b.image = some ⟨callsOf (segments b.bin), eEntry b.bin⟩ := if_pos hb.header

lemma Binary.Linkable.linked (hb : b.Linkable) : ∀ image ∈ b.image, image.Linked := by
  intro image himage c hc
  rw [hb.image] at himage
  obtain rfl := Option.some.inj himage
  exact mem_callsOf hb.regular hc

end Program

/-! ## The address spaces -/

section Spaces

variable {M : Machine} {k k' : Kern} {s : PhysMem} {D K : Finset ℕ} {d q base : ℕ} {rest : List ℕ}
  {e : EnvPtr} {c : MapperCall} {l : List MapperCall} {S S₁ S₂ : ByteSpace}

lemma SameUser.refl (S : ByteSpace) : SameUser S S := fun _ _ => rfl

lemma SameUser.trans (h : SameUser S S₁) (h' : SameUser S₁ S₂) : SameUser S S₂ := fun v hv =>
  (h v hv).trans (h' v hv)

/-- A new page directory changes no other address space. -/
lemma PageAccounting.spaceOf_newDir (h : PageAccounting M s D K ∅) (hf : s.pageFreeList = q :: rest)
    (hd : d ∈ D) : SameUser (spaceOf (s.newDir q rest base) d) (spaceOf s d) := by
  intro v hv
  have hi := pdx_lt_of_lt_utop (page_lt_utop hv).1
  unfold spaceOf
  rw [h.translate_newDir hf hd hi]
  apply Option.map_congr
  intro w hw
  rw [PhysMem.newDir_mem_of_ne (h.ppn_ne_free hd hi hw hf)]

/-- Nothing is mapped in a new address space. -/
lemma spaceOf_newDir_self {v : ℕ} (hv : v * 4096 < utop.toNat) :
    spaceOf (s.newDir q rest base) q v = none := by
  have hi := pdx_lt_of_lt_utop (page_lt_utop hv).1
  have hnone : translate (s.newDir q rest base) q (BitVec.ofNat 32 (v * 4096)) = none := by
    rw [translate_eq_none_iff]
    intro hval
    rw [PhysMem.newDir_mem_user hi, pteValid_zero] at hval
    exact absurd hval Bool.false_ne_true
  rw [spaceOf, hnone]
  rfl

/-- What the calls for an environment have done. -/
structure MakesCalls (M : Machine) (D K : Finset ℕ) (e : EnvPtr) (l : List MapperCall)
    (k k' : Kern) : Prop where
  frame : k' = { k with pm := k'.pm }
  pages : PageAccounting M k'.pm D K ∅
  free : k.pm.pageFreeList.length ≤ k'.pm.pageFreeList.length + 2 * l.length
  space : SameUser (userSpace k' e) (l.foldl mapCall (userSpace k e))
  others : ∀ d ∈ D, d ≠ (k.envs e).pgdir → SameUser (spaceOf k'.pm d) (spaceOf k.pm d)

lemma SameUser.foldl (h : SameUser S S₁) (l : List MapperCall) :
    SameUser (l.foldl MosVolca.mapCall S) (l.foldl MosVolca.mapCall S₁) := by
  induction l generalizing S S₁ with
  | nil => exact h
  | cons c l ih => exact ih (h.mapCall c)

/-- **The calls succeed**, with two free pages for each, and do to the address space of the environment
what they say, and nothing to the others. -/
lemma foldlM_checkedCall (h : PageAccounting M k.pm D K ∅) (hd : (k.envs e).pgdir ∈ D)
    (hl : ∀ c ∈ l, c.va < utop ∧ c.perm < 4096#32) (hfree : 2 * l.length ≤ k.pm.pageFreeList.length) :
    ∃ k', l.foldlM (checkedCall M e) k = .ok k' ∧ MakesCalls M D K e l k k' := by
  induction l generalizing k with
  | nil => exact ⟨k, rfl, rfl, h, Nat.le_add_right _ _, .refl _, fun _ _ _ => .refl _⟩
  | cons c l ih =>
    rw [List.length_cons] at hfree
    obtain ⟨hva, hperm⟩ := hl c List.mem_cons_self
    obtain ⟨k1, hmap, hlen⟩ := loadIcodeMapper_returns h hd hva (by omega)
    obtain ⟨henvs, h1⟩ := loadIcodeMapper_accounting h hd hva hperm hmap
    have hspace := loadIcodeMapper_space h hd hva hperm hmap
    obtain ⟨k', hrun, hrest⟩ := ih h1 (henvs ▸ hd) (fun c' hc' => hl c' (List.mem_cons_of_mem c hc'))
      (by omega)
    refine ⟨k', ?_, ?_, hrest.pages, ?_, ?_, ?_⟩
    · rw [List.foldlM_cons, checkedCall, hmap]
      exact hrun
    · obtain ⟨pm, rfl⟩ := loadIcodeMapper_frame hmap
      exact hrest.frame
    · have := hrest.free
      rw [List.length_cons]
      omega
    · exact hrest.space.trans (hspace.foldl l)
    · intro d hd' hne
      have hone := loadIcodeMapper_spaces h hd hva hperm hmap hd'
      rw [if_neg hne] at hone
      exact (hrest.others d hd' (henvs ▸ hne)).trans hone

end Spaces

/-! ## One environment -/

/-- **The environment is ready to run the program.** -/
structure RunsProgram (k : Kern) (e : EnvPtr) (b : Binary) : Prop where
  runnable : (k.envs e).status = .runnable
  priority : (k.envs e).pri = b.priority
  entry : (k.envs e).tf.cp0Epc = eEntry b.bin
  program : HasProgram (segments b.bin) (userSpace k e)

/-- What `env_create` has done. -/
structure Creates (M : Machine) (k : Kern) (b : Binary) (e : EnvPtr) (k' : Kern) : Prop where
  spaces : ∃ D K, EnvSpaces M D K k'
  fresh : (k.envs e).status = .free
  slots : k.envFreeList.length = k'.envFreeList.length + 1
  asids : (usedAsids k'.asidBitmap).card = (usedAsids k.asidBitmap).card + 1
  free : k.pm.pageFreeList.length ≤ k'.pm.pageFreeList.length + b.pages
  runs : RunsProgram k' e b
  kept : ∀ x, (k.envs x).status ≠ .free →
    k'.envs x = k.envs x ∧ SameUser (userSpace k' x) (userSpace k x)

section Creation

variable {M : Machine} {k k' : Kern} {D K : Finset ℕ} {e x : EnvPtr} {b : Binary}

/-- An identifier is left for `asid_alloc`. -/
lemma exists_asidAlloc {bitmap : ℕ → Word} (h : (usedAsids bitmap).card < nasid) :
    ∃ asid bitmap', asidAlloc bitmap = .ok (asid, bitmap') := by
  rcases ha : asidAlloc bitmap with r | ⟨asid, bitmap'⟩
  · obtain rfl := asidAlloc_error ha
    have hall : usedAsids bitmap = Finset.range nasid := Finset.filter_true_of_mem fun i hi =>
      asidAlloc_error_iff.mp ha i (Finset.mem_range.mp hi)
    rw [hall, Finset.card_range] at h
    exact absurd h (lt_irrefl _)
  · exact ⟨asid, bitmap', rfl⟩

/-- **`env_create`** makes an environment with the program, and leaves the others alone. -/
theorem EnvSpaces.envCreateElf (h : EnvSpaces M D K k) (hb : b.Linkable) (hslot : k.envFreeList ≠ [])
    (hasid : (usedAsids k.asidBitmap).card < nasid) (hpages : b.pages ≤ k.pm.pageFreeList.length) :
    ∃ e k', envCreateElf M k b = .ok (e, k') ∧ Creates M k b e k' := by
  obtain ⟨e, frest, he⟩ := List.exists_cons_of_ne_nil hslot
  obtain ⟨asid, bitmap, ha⟩ := exists_asidAlloc hasid
  obtain ⟨q, rest, hf⟩ : ∃ q rest, k.pm.pageFreeList = q :: rest :=
    List.exists_cons_of_length_pos (by unfold Binary.pages at hpages; omega)
  have hq : q < M.npage := h.pages.free_lt q (by rw [hf]; exact List.mem_cons_self)
  have hold : (k.envs e).status = .free := (h.free_mem e).mp (he ▸ List.mem_cons_self)
  have halloc : envAlloc M k 0 = .ok (.ok e, k.allocated e q rest asid bitmap 0) := envAlloc_ok he hf hq ha
  have hself := k.allocated_self e q rest asid 0 bitmap
  -- the environment before the program is loaded
  set k1 := (k.allocated e q rest asid bitmap 0).setEnv e fun x =>
    { x with pri := b.priority, status := .runnable } with hk1
  have hpm : k1.pm = k.pm.newDir q rest k.basePgdir := rfl
  have henv : k1.envs e = { (k.allocated e q rest asid bitmap 0).envs e with
      pri := b.priority, status := .runnable } := Kern.setEnv_envs_same ..
  have hdir : (k1.envs e).pgdir = q := by
    rw [henv, hself]
  have hothers : ∀ x, x ≠ e → k1.envs x = k.envs x := by
    intro x hx
    rw [hk1, Kern.setEnv_envs_of_ne _ _ hx, Kern.allocated_of_ne _ _ _ _ _ _ _ hx]
  have hacc : PageAccounting M k1.pm (insert q D) K ∅ := h.pages.newDir hf k.basePgdir
  have hlen : 2 * (callsOf (segments b.bin)).length ≤ k1.pm.pageFreeList.length := by
    have hcalls := length_callsOf hb.regular
    have hrest : k1.pm.pageFreeList = rest := rfl
    rw [hf, List.length_cons] at hpages
    rw [hrest]
    unfold Binary.pages at hpages
    omega
  obtain ⟨k2, hload, hmade⟩ := foldlM_checkedCall hacc (e := e)
    (by rw [hdir]; exact Finset.mem_insert_self q D) (fun c hc => mem_callsOf hb.regular hc) hlen
  set k3 := k2.setEnv e fun x => { x with tf := { x.tf with cp0Epc := eEntry b.bin } } with hk3
  have hrun : MosVolca.envCreateElf M k b =
      .ok (e, { k3 with envSchedList := k3.envSchedList.insertHead e }) := by
    unfold MosVolca.envCreateElf
    rw [halloc, ok_bind]
    simp only
    rw [← hk1, loadIcodeElf, if_pos hb.header, loadPhdrs_eq]
    show ((callsOf (segments b.bin)).foldlM (checkedCall M e) k1 >>= _) >>= _ = _
    rw [hload]
    rfl
  have henvs : k2.envs = k1.envs := by rw [hmade.frame]
  have henv3 : k3.envs e = { k1.envs e with
      tf := { (k1.envs e).tf with cp0Epc := eEntry b.bin } } := by
    rw [hk3, Kern.setEnv_envs_same, henvs]
  have hkeep : ∀ x, x ≠ e → k3.envs x = k.envs x := by
    intro x hx
    rw [hk3, Kern.setEnv_envs_of_ne _ _ hx, henvs, hothers x hx]
  have hspace : userSpace { k3 with envSchedList := k3.envSchedList.insertHead e } e = userSpace k2 e := by
    show spaceOf k2.pm (k3.envs e).pgdir = spaceOf k2.pm (k2.envs e).pgdir
    rw [henv3, henvs]
  have hlist : k3.envFreeList = frest := by
    show k2.envFreeList = frest
    rw [hmade.frame]
    show k.envFreeList.erase e = frest
    rw [he, List.erase_cons_head]
  have hbits : k3.asidBitmap = bitmap := by
    show k2.asidBitmap = bitmap
    rw [hmade.frame]
    rfl
  obtain ⟨D', K', hspaces, -⟩ := h.envCreate hb.linked ((envCreateElf_eq b k).symm.trans hrun)
  refine ⟨e, _, hrun, ⟨D', K', hspaces⟩, hold, ?_, ?_, ?_, ⟨?_, ?_, ?_, ?_⟩, fun x hx => ?_⟩
  · rw [he, List.length_cons]
    exact congrArg (·.length + 1) hlist.symm
  · rw [← card_usedAsids ha]
    exact congrArg (fun bits => (usedAsids bits).card) hbits
  · have hfree := hmade.free
    have hcalls := length_callsOf hb.regular
    have hrest : k1.pm.pageFreeList = rest := rfl
    rw [hrest] at hfree
    rw [hf, List.length_cons]
    show rest.length + 1 ≤ k2.pm.pageFreeList.length + b.pages
    unfold Binary.pages
    omega
  · exact congrArg Env.status (henv3.trans (by rw [henv]))
  · exact congrArg Env.pri (henv3.trans (by rw [henv]))
  · exact congrArg (fun y : Env => y.tf.cp0Epc) henv3
  · rw [hspace]
    refine (hasProgram_foldl hb.regular hb.apart fun v hv => ?_).congr hb.regular hmade.space
    show spaceOf k1.pm (k1.envs e).pgdir v = none
    rw [hdir]
    exact spaceOf_newDir_self hv
  · have hne : x ≠ e := fun hxe => hx (hxe ▸ hold)
    have hxd := h.dir x hx
    refine ⟨hkeep x hne, ?_⟩
    have hdirs : (k.envs x).pgdir ≠ (k1.envs e).pgdir := by
      rw [hdir]
      rintro hc
      exact Shape.not_node_of_refCount (h.pages.head_free hf).2.2.2 (Shape.Node.of_mem (hc ▸ hxd))
    have hload := hmade.others _ (Finset.mem_insert_of_mem hxd) hdirs
    show SameUser (spaceOf k2.pm (k3.envs x).pgdir) (spaceOf k.pm (k.envs x).pgdir)
    rw [hkeep x hne]
    exact hload.trans (h.pages.spaceOf_newDir hf hxd)

/-! ## The environments of the boot -/

/-- A program stays as it is while other environments are made. -/
lemma RunsProgram.congr (h : RunsProgram k e b) (hb : b.Linkable) (henv : k'.envs e = k.envs e)
    (hspace : SameUser (userSpace k' e) (userSpace k e)) : RunsProgram k' e b where
  runnable := by rw [henv, h.runnable]
  priority := by rw [henv, h.priority]
  entry := by rw [henv, h.entry]
  program := h.program.congr hb.regular hspace

/-- **Several environments**, one after the other. -/
lemma createAll_runs (h : EnvSpaces M D K k) {bs : List Binary} (hb : ∀ b ∈ bs, b.Linkable)
    (hslots : bs.length ≤ k.envFreeList.length)
    (hasids : (usedAsids k.asidBitmap).card + bs.length ≤ nasid)
    (hpages : (bs.map Binary.pages).sum ≤ k.pm.pageFreeList.length) :
    ∃ es k', createAll M k bs = .ok (es, k') ∧ List.Forall₂ (RunsProgram k') es bs ∧ es.Nodup ∧
      (∀ e ∈ es, (k.envs e).status = .free) ∧ ∀ x, (k.envs x).status ≠ .free →
        k'.envs x = k.envs x ∧ SameUser (userSpace k' x) (userSpace k x) := by
  induction bs generalizing k D K with
  | nil =>
    exact ⟨[], k, rfl, .nil, List.nodup_nil, fun e he => absurd he List.not_mem_nil,
      fun x _ => ⟨rfl, .refl _⟩⟩
  | cons b bs ih =>
    rw [List.length_cons] at hslots hasids
    rw [List.map_cons, List.sum_cons] at hpages
    have hslot : k.envFreeList ≠ [] := List.ne_nil_of_length_pos (by omega)
    obtain ⟨e, k1, hone, hmade⟩ :=
      h.envCreateElf (hb b List.mem_cons_self) hslot (by omega) (by omega)
    obtain ⟨D1, K1, h1⟩ := hmade.spaces
    have hs := hmade.slots
    have ha := hmade.asids
    have hp := hmade.free
    obtain ⟨es, k', hrest, hrun, hnodup, hfresh, hkept⟩ := ih h1
      (fun b' hb' => hb b' (List.mem_cons_of_mem b hb')) (by omega) (by omega) (by omega)
    have hlive : (k1.envs e).status ≠ .free := by
      rw [hmade.runs.runnable]
      decide
    obtain ⟨henv, hspace⟩ := hkept e hlive
    have hstill : ∀ x, (k.envs x).status ≠ .free → (k1.envs x).status ≠ .free := by
      intro x hx
      rw [(hmade.kept x hx).1]
      exact hx
    refine ⟨e :: es, k', ?_, ?_, ?_, ?_, ?_⟩
    · rw [createAll, hone, ok_bind]
      simp only
      rw [hrest]
      rfl
    · exact .cons (hmade.runs.congr (hb b List.mem_cons_self) henv hspace) hrun
    · exact List.nodup_cons.mpr ⟨fun he => hlive (hfresh e he), hnodup⟩
    · intro x hx
      rcases List.mem_cons.mp hx with rfl | hx
      · exact hmade.fresh
      · by_contra hne
        exact hstill x hne (hfresh x hx)
    · intro x hx
      obtain ⟨henv1, hspace1⟩ := hmade.kept x hx
      obtain ⟨henv2, hspace2⟩ := hkept x (hstill x hx)
      exact ⟨henv2.trans henv1, hspace2.trans hspace1⟩

end Creation

/-- **The programs of the boot.** After `page_init` and `env_init` on any machine, an environment is made
for each of the binaries, of which there are as many as address space identifiers at most. If they are
linked as the loader needs it and there are pages enough, all calls return, the environments are
different, and at the end each of them is runnable from the entry point of its binary, with the bytes of
the segments of this binary in its memory, zeros in the rest of their pages, and nothing else.

**Proof sketch.** `load_icode` makes the calls of its mapper for one segment after the other. Each call
puts a new page into the address space of the environment and leaves the others alone, so the calls for
a segment leave its pages, and a page belongs to one segment only. A new page directory is empty below
`UTOP`. What is made later takes pages from the free list, and no page of a program is there. -/
theorem createAll_programs (M : Machine) (hM : M.BootLayout) (mem : Store Word) (pm₀ : PhysMem)
    (hinit : pageInit M mem = .ok pm₀) (ktf : Trapframe) (bs : List Binary)
    (hb : ∀ b ∈ bs, b.Linkable) (hcount : bs.length ≤ nasid)
    (hpages : (bs.map Binary.pages).sum + 3 ≤ M.npage - M.bootPages) :
    ∃ k es k', envInit M pm₀ ktf = .ok k ∧ createAll M k bs = .ok (es, k') ∧ es.Nodup ∧
      List.Forall₂ (RunsProgram k') es bs := by
  obtain ⟨pm, base, K, hboot, hacc, -, -, hfree⟩ := envInit_returns hM hinit ktf
  have hslots : (Kern.boot pm base ktf).envFreeList.length = nenv := by
    show allEnvs.length = nenv
    unfold allEnvs
    exact List.length_finRange
  have hasids : usedAsids (Kern.boot pm base ktf).asidBitmap = ∅ := by
    ext i
    have hbit : Bitmap.test (fun _ => 0#32) i = false := by simp [Bitmap.test]
    rw [mem_usedAsids]
    show i < nasid ∧ Bitmap.test (fun _ => 0#32) i = true ↔ _
    simp [hbit]
  have hle : nasid ≤ nenv := by decide
  obtain ⟨es, k', hcreate, hruns, hnodup, -⟩ := createAll_runs (envSpaces_boot hacc) hb
    (by rw [hslots]; exact hcount.trans hle) (by rw [hasids, Finset.card_empty, Nat.zero_add]; exact hcount)
    (by
      show (bs.map Binary.pages).sum ≤ pm.pageFreeList.length
      omega)
  exact ⟨_, es, k', hboot, hcreate, hnodup, hruns⟩

/-- A binary with one segment of two bytes at 0x400000, of which the first is in the file. -/
def tinyElf : Binary where
  bin := fun i => [0x7f, 0x45, 0x4c, 0x46, 0, 0, 0, 0, 0, 0, 0, 0, 0, 0, 0, 0,
    2, 0, 0, 0, 0, 0, 0, 0, 0, 0, 0x40, 0, 52, 0, 0, 0, 0, 0, 0, 0, 0, 0, 0, 0, 0, 0, 32, 0, 1, 0,
    0, 0, 0, 0, 0, 0,
    1, 0, 0, 0, 84, 0, 0, 0, 0, 0, 0x40, 0, 0, 0, 0, 0, 1, 0, 0, 0, 2, 0, 0, 0, 0, 0, 0, 0, 0, 0, 0, 0,
    0x2a].getD i 0
  size := 85
  priority := 1

lemma segments_tinyElf :
    segments tinyElf.bin = [⟨⟨0x400000, 1, 2, 0⟩, tinyElf.bin.from 84⟩] := rfl

lemma tinyElf_linkable : tinyElf.Linkable where
  header := by decide
  regular := by
    rw [segments_tinyElf]
    intro s hs
    obtain rfl := List.mem_singleton.mp hs
    exact ⟨by decide, by decide, .inl rfl⟩
  apart := by
    rw [segments_tinyElf]
    exact List.pairwise_singleton _ _

/-- The bytes of the program. -/
lemma RunsProgram.bytes_tinyElf {k : Kern} {e : EnvPtr} (h : RunsProgram k e tinyElf) :
    (userSpace k e).byteAt 0x400000 = some 0x2a ∧ (userSpace k e).byteAt 0x400001 = some 0 := by
  have hmem : ⟨⟨0x400000, 1, 2, 0⟩, tinyElf.bin.from 84⟩ ∈ segments tinyElf.bin := by
    rw [segments_tinyElf]
    exact List.mem_singleton_self _
  have hloaded := h.program.loaded _ hmem
  exact ⟨hloaded 0 (by decide), hloaded 1 (by decide)⟩

/-- The theorem for two environments with this binary. -/
theorem createAll_programs_tinyElf : ∃ pm₀ k e₁ e₂ k',
    pageInit bootMachine (fun _ _ => 0#32) = .ok pm₀ ∧ envInit bootMachine pm₀ Env.zero.tf = .ok k ∧
      createAll bootMachine k [tinyElf, tinyElf] = .ok ([e₁, e₂], k') ∧ e₁ ≠ e₂ ∧ ∀ e ∈ [e₁, e₂],
        (userSpace k' e).byteAt 0x400000 = some 0x2a ∧ (userSpace k' e).byteAt 0x400001 = some 0 := by
  obtain ⟨k, es, k', hboot, hcreate, hnodup, hruns⟩ := createAll_programs bootMachine bootMachine_layout
    (fun _ _ => 0#32) booted.pm₀ booted.pageInit_eq Env.zero.tf [tinyElf, tinyElf]
    (by
      intro b hb
      have hb : b = tinyElf := by simpa using hb
      exact hb ▸ tinyElf_linkable)
    (by decide) (by decide)
  obtain _ | ⟨h₁, hrest⟩ := hruns
  obtain _ | ⟨h₂, hnil⟩ := hrest
  obtain _ | _ := hnil
  refine ⟨_, k, _, _, k', booted.pageInit_eq, hboot, hcreate, by simpa using hnodup, fun e he => ?_⟩
  rcases List.mem_cons.mp he with rfl | he
  · exact h₁.bytes_tinyElf
  · obtain rfl := List.mem_singleton.mp he
    exact h₂.bytes_tinyElf

end MosVolca
