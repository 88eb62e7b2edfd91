import MosVolca.User.Fd

/-!
# The program headers of a spawned file

The loop of `spawn` in `user/lib/spawn.c` over the program headers. The bounds of the loop are read
through `ehdr`, which points to `elfbuf`, and each round reads an entry of the table into `elfbuf`.

## Main definitions

* `MosVolca.ExecFile` — the file.
* `MosVolca.ExecFile.phLoop` — the loop, with what each round reads.
* `MosVolca.ExecFile.FollowsHeader` — the loop goes by the header of the file.

## Main results

* `MosVolca.spawn_followsHeader_iff` — when it does.
-/

namespace MosVolca

/-- The file, whose size is at most `MAXFILESIZE`. -/
structure ExecFile where
  bytes : List (BitVec 8)
  length_le : bytes.length ≤ maxfilesize.toNat

/-- The bytes from `elfbuf` on. -/
abbrev ElfBuf := ℕ → BitVec 8

/-! ## The function -/

/-- `sizeof elfbuf`. -/
def elfbufSize : ℕ := 512

/-- `sizeof(Elf32_Ehdr)`. -/
def ehdrSize : Word := 52

/-- A field of 16 bits. -/
def ehdrHalf (b : ElfBuf) (i : ℕ) : ℕ := (b i).toNat + 256 * (b (i + 1)).toNat

/-- A field of 32 bits. -/
def ehdrWord (b : ElfBuf) (i : ℕ) : Word := b (i + 3) ++ b (i + 2) ++ b (i + 1) ++ b i

/-- `e_phoff`. -/
def ePhoff (b : ElfBuf) : Word := ehdrWord b 28
/-- `e_phentsize`. -/
def ePhentsize (b : ElfBuf) : ℕ := ehdrHalf b 42
/-- `e_phnum`. -/
def ePhnum (b : ElfBuf) : ℕ := ehdrHalf b 44
/-- `p_type`. -/
def pType (b : ElfBuf) : Word := ehdrWord b 0
/-- `PT_LOAD`. -/
def ptLoad : Word := 1

/-- The test of `elf_from`, for a binary of `sizeof(Elf32_Ehdr)` bytes. -/
def elfFrom (b : ElfBuf) : Prop :=
  b 0 = 0x7f ∧ b 1 = 0x45 ∧ b 2 = 0x4c ∧ b 3 = 0x46 ∧ ehdrHalf b 16 = 2

instance (b : ElfBuf) : Decidable (elfFrom b) := by
  unfold elfFrom
  infer_instance

/-- The bytes are stored from `elfbuf` on. -/
def overlay (b : ElfBuf) (l : List (BitVec 8)) : ElfBuf :=
  fun i => if i < l.length then l.getD i 0 else b i

/-- What a round of the loop reads: `e_phnum` in the test before it, the offset, `e_phentsize` as it
is passed to `readn`, what `readn` returns, and `e_phentsize` after that, which the result is compared
with and the offset is increased by. -/
structure PhRound where
  phnum : ℕ
  offset : ℕ
  asked : ℕ
  got : ℕ
  phentsize : ℕ
deriving DecidableEq

/-- How the loop ends. -/
inductive LoopEnd
  /-- The test fails, with `e_phnum` there. -/
  | done (phnum : ℕ)
  /-- `r = -E_NOT_EXEC; goto err1`: `readn` returned something else than `e_phentsize`. -/
  | notExec
  /-- `goto err1`, with what `read_map` or `elf_load_seg` returned. -/
  | failed (r : Word)
  /-- Bytes are stored behind the end of `elfbuf`. -/
  | overrun
deriving DecidableEq

namespace ExecFile

variable (f : ExecFile)

/-- `f_size`. -/
def size : Word := BitVec.ofNat 32 f.bytes.length

/-- `file_read`. -/
def read (n offset : Word) : List (BitVec 8) :=
  if f.size < offset then []
  else if f.size < offset + n then (f.bytes.drop offset.toNat).take (f.size - offset).toNat
  else (f.bytes.drop offset.toNat).take n.toNat

lemma size_toNat : f.size.toNat = f.bytes.length := by
  have hm : maxfilesize.toNat = 0x400000 := rfl
  have h := f.length_le
  rw [size, BitVec.toNat_ofNat, Nat.mod_eq_of_lt (by omega)]

/-- The sum does not wrap: a request is far smaller than the address space. -/
lemma read_eq {n offset : Word} (hn : n.toNat < 2 ^ 16) :
    f.read n offset = (f.bytes.drop offset.toNat).take n.toNat := by
  have hm : maxfilesize.toNat = 0x400000 := rfl
  have h := f.length_le
  have hs := f.size_toNat
  unfold read
  split_ifs with h1 h2
  · rw [BitVec.lt_def, hs] at h1
    rw [List.drop_eq_nil_of_le h1.le, List.take_nil]
  · rw [BitVec.lt_def, hs] at h1
    rw [BitVec.lt_def, hs, BitVec.toNat_add, Nat.mod_eq_of_lt (by omega)] at h2
    rw [BitVec.toNat_sub_of_le (by rw [BitVec.le_def]; omega), hs,
      List.take_of_length_le (by rw [List.length_drop]),
      List.take_of_length_le (by rw [List.length_drop]; omega)]
  · rfl

/-- `read` returns at most what it is asked for. -/
lemma read_length_le (n offset : Word) : (f.read n offset).length ≤ n.toNat := by
  have hs := f.size_toNat
  unfold read
  split_ifs with h1 h2
  · exact Nat.zero_le _
  · rw [BitVec.lt_def, BitVec.toNat_add] at h2
    rw [BitVec.lt_def] at h1
    rw [List.length_take, BitVec.toNat_sub_of_le (by rw [BitVec.le_def]; omega)]
    by_cases hw : offset.toNat + n.toNat < 2 ^ 32
    · rw [Nat.mod_eq_of_lt hw] at h2
      omega
    · rw [Nat.mod_eq_sub_mod (by omega), Nat.mod_eq_of_lt (by omega)] at h2
      omega
  · rw [List.length_take]
    exact Nat.min_le_left _ _

/-- The loop of `readn`, with `tot`. -/
def readnFrom (n tot offset : Word) : List (BitVec 8) :=
  if tot < n then
    if f.read (n - tot) offset = [] then []
    else
      f.read (n - tot) offset ++
        readnFrom n (tot + BitVec.ofNat 32 (f.read (n - tot) offset).length)
          (offset + BitVec.ofNat 32 (f.read (n - tot) offset).length)
  else []
termination_by (n - tot).toNat
decreasing_by
  rename_i hlt hne
  have hle := f.read_length_le (n - tot) offset
  have hpos := List.length_pos_iff.mpr hne
  have hn := n.isLt
  rw [BitVec.lt_def] at hlt
  have hsub : (n - tot).toNat = n.toNat - tot.toNat :=
    BitVec.toNat_sub_of_le (by rw [BitVec.le_def]; omega)
  have hadd : (tot + BitVec.ofNat 32 (f.read (n - tot) offset).length).toNat =
      tot.toNat + (f.read (n - tot) offset).length := by
    rw [BitVec.toNat_add, BitVec.toNat_ofNat, Nat.add_mod_mod, Nat.mod_eq_of_lt (by omega)]
  rw [BitVec.toNat_sub_of_le (by rw [BitVec.le_def, hadd]; omega), hadd, hsub]
  omega

/-- `readn`, with the offset of the descriptor. -/
def readn (n offset : Word) : List (BitVec 8) := f.readnFrom n 0 offset

/-- The loop of the program headers, with `_ph_idx`, `ph_off` and `elfbuf`. `segment` is what
`read_map` and `elf_load_seg` return for an entry in a round: they leave `elfbuf` as it is. -/
def phLoop (segment : ℕ → ElfBuf → Word) (idx : ℕ) (phOff : Word) (elfbuf : ElfBuf) :
    List PhRound × LoopEnd :=
  if idx < ePhnum elfbuf then
    let l := f.readn (BitVec.ofNat 32 (ePhentsize elfbuf)) phOff
    let elfbuf' := overlay elfbuf l
    let round : PhRound :=
      ⟨ePhnum elfbuf, phOff.toNat, ePhentsize elfbuf, l.length, ePhentsize elfbuf'⟩
    if elfbufSize < l.length then ([round], .overrun)
    else if l.length ≠ ePhentsize elfbuf' then ([round], .notExec)
    else if pType elfbuf' = ptLoad ∧ (segment idx elfbuf').toInt < 0 then
      ([round], .failed (segment idx elfbuf'))
    else
      let rest := phLoop segment (idx + 1) (phOff + BitVec.ofNat 32 (ePhentsize elfbuf')) elfbuf'
      (round :: rest.1, rest.2)
  else ([], .done (ePhnum elfbuf))
termination_by 2 ^ 16 - idx
decreasing_by
  rename_i hlt _ _ _
  simp only [ePhnum, ehdrHalf] at hlt
  omega

/-- `spawn`, from the header on, with what `elfbuf` holds before: `none` if the file is not
executable. -/
def spawnLoop (segment : ℕ → ElfBuf → Word) (stack : ElfBuf) : Option (List PhRound × LoopEnd) :=
  let l := f.readn ehdrSize 0
  if l.length ≠ ehdrSize.toNat then none
  else if ¬ elfFrom (overlay stack l) then none
  else some (f.phLoop segment 0 (ePhoff (overlay stack l)) (overlay stack l))

/-! ## What the loop should do -/

/-- The bytes of the file. -/
def contents : ElfBuf := fun i => f.bytes.getD i 0

/-- The first bytes of the file pass `elf_from`. -/
def Executable : Prop := ehdrSize.toNat ≤ f.bytes.length ∧ elfFrom f.contents

instance : Decidable f.Executable := inferInstanceAs (Decidable (_ ∧ _))

/-- `e_phoff` of the header of the file. -/
def phoff : ℕ := (ePhoff f.contents).toNat
/-- `e_phentsize` of the header of the file. -/
def phentsize : ℕ := ePhentsize f.contents
/-- `e_phnum` of the header of the file. -/
def phnum : ℕ := ePhnum f.contents

/-- Entry `k` of the table, as far as the file goes. -/
def entry (k : ℕ) : List (BitVec 8) :=
  (f.bytes.drop (f.phoff + k * f.phentsize)).take f.phentsize

/-- The round for entry `k`. -/
def headerRound (k : ℕ) : PhRound :=
  ⟨f.phnum, f.phoff + k * f.phentsize, f.phentsize, (f.entry k).length, f.phentsize⟩

/-- How the loop may end after `n` rounds: all are done, the file ends within the last entry, or its
segment is not loaded. -/
def MayEnd (n : ℕ) : LoopEnd → Prop
  | .done phnum => phnum = f.phnum ∧ n = f.phnum
  | .notExec => ∃ k, n = k + 1 ∧ (f.entry k).length < f.phentsize
  | .failed r => r.toInt < 0
  | .overrun => False

/-- **The loop goes by the header of the file**: it has a round for each entry, in order, up to the
last one or to an error, and each entry that it reads is in `elfbuf`. -/
def FollowsHeader (segment : ℕ → ElfBuf → Word) (stack : ElfBuf) : Prop :=
  ∃ n ≤ f.phnum, ∃ e, f.spawnLoop segment stack = some ((List.range n).map f.headerRound, e) ∧
    f.MayEnd n e ∧ ∀ k < n, (f.entry k).length ≤ elfbufSize

/-! ## The entries that overwrite the header -/

/-- `elfbuf` with the header and the first `k` entries read into it. -/
def bufAt (stack : ElfBuf) : ℕ → ElfBuf
  | 0 => overlay stack (f.bytes.take ehdrSize.toNat)
  | k + 1 => overlay (bufAt stack k) (f.entry k)

/-- Entry `k` is in the file, and its segment is loaded if it has one. -/
def Loads (segment : ℕ → ElfBuf → Word) (stack : ElfBuf) (k : ℕ) : Prop :=
  (f.entry k).length = f.phentsize ∧
    ¬ (pType (f.bufAt stack (k + 1)) = ptLoad ∧ (segment k (f.bufAt stack (k + 1))).toInt < 0)

/-- The bytes from `i` up to `j` of entry `k`, as far as it goes, are those of the header. -/
def Agrees (k i j : ℕ) : Prop :=
  ∀ o, i ≤ o → o < j → o < (f.entry k).length → (f.entry k).getD o 0 = f.contents o

/-- **The entries keep the header**: those that are read behind entries that load fit into `elfbuf`
and hold `e_phentsize` where the header does, and `e_phnum` if they load themselves. -/
structure KeepsHeader (segment : ℕ → ElfBuf → Word) (stack : ElfBuf) : Prop where
  fits : ∀ k < f.phnum, (∀ j < k, f.Loads segment stack j) → (f.entry k).length ≤ elfbufSize
  phentsize : ∀ k < f.phnum, (∀ j < k, f.Loads segment stack j) → f.Agrees k 42 44
  phnum : ∀ k < f.phnum, (∀ j ≤ k, f.Loads segment stack j) → f.Agrees k 44 46

/-- Entries of at most 42 bytes end before the fields. -/
lemma keepsHeader_of_le (segment : ℕ → ElfBuf → Word) (stack : ElfBuf) (h : f.phentsize ≤ 42) :
    f.KeepsHeader segment stack := by
  have hlen : ∀ k, (f.entry k).length ≤ 42 := by
    intro k
    rw [entry, List.length_take]
    omega
  refine ⟨fun k _ _ => (hlen k).trans (by decide), ?_, ?_⟩ <;>
  · intro k _ _ o ho _ hlt
    have := hlen k
    omega

/-! ## What is read -/

variable {f} {segment : ℕ → ElfBuf → Word} {stack b b' : ElfBuf} {k i : ℕ} {l : List (BitVec 8)}

/-- `readn` reads as much of the file as there is, whatever the single reads return. -/
lemma readnFrom_eq {n tot offset : Word} (hn : n.toNat < 2 ^ 16) (htot : tot ≤ n) :
    f.readnFrom n tot offset = (f.bytes.drop offset.toNat).take (n.toNat - tot.toNat) := by
  have hm : maxfilesize.toNat = 0x400000 := rfl
  have hf := f.length_le
  have hsub : (n - tot).toNat = n.toNat - tot.toNat := BitVec.toNat_sub_of_le htot
  have hread : f.read (n - tot) offset =
      (f.bytes.drop offset.toNat).take (n.toNat - tot.toNat) := by
    rw [f.read_eq (by omega), hsub]
  have hlen := congrArg List.length hread
  rw [List.length_take, List.length_drop] at hlen
  rw [BitVec.le_def] at htot
  rw [readnFrom]
  split_ifs with hlt hnil
  · exact (hread ▸ hnil).symm
  · have hpos := List.length_pos_iff.mpr hnil
    have htot' : (tot + BitVec.ofNat 32 (f.read (n - tot) offset).length).toNat =
        tot.toNat + (f.read (n - tot) offset).length := by
      rw [BitVec.toNat_add, BitVec.toNat_ofNat, Nat.add_mod_mod, Nat.mod_eq_of_lt (by omega)]
    have hoff' : (offset + BitVec.ofNat 32 (f.read (n - tot) offset).length).toNat =
        offset.toNat + (f.read (n - tot) offset).length := by
      rw [BitVec.toNat_add, BitVec.toNat_ofNat, Nat.add_mod_mod, Nat.mod_eq_of_lt (by omega)]
    -- what is left to read is nothing, or it is behind the end of the file
    have hrest : f.readnFrom n (tot + BitVec.ofNat 32 (f.read (n - tot) offset).length)
        (offset + BitVec.ofNat 32 (f.read (n - tot) offset).length) = [] := by
      rw [readnFrom]
      by_cases hmore : tot + BitVec.ofNat 32 (f.read (n - tot) offset).length < n
      · rw [BitVec.lt_def, htot'] at hmore
        rw [if_pos (by rw [BitVec.lt_def, htot']; exact hmore), if_pos]
        rw [f.read_eq, hoff', List.drop_eq_nil_of_le (by omega), List.take_nil]
        rw [BitVec.toNat_sub_of_le (by rw [BitVec.le_def, htot']; omega)]
        omega
      · rw [if_neg hmore]
    rw [hrest, List.append_nil, hread]
  · rw [BitVec.lt_def] at hlt
    rw [show n.toNat - tot.toNat = 0 by omega, List.take_zero]

lemma readn_eq {n offset : Word} (hn : n.toNat < 2 ^ 16) :
    f.readn n offset = (f.bytes.drop offset.toNat).take n.toNat := by
  rw [readn, readnFrom_eq hn (by rw [BitVec.le_def]; exact Nat.zero_le _)]
  rfl

lemma ehdrHalf_lt (b : ElfBuf) (i : ℕ) : ehdrHalf b i < 2 ^ 16 := by
  unfold ehdrHalf
  omega

lemma ehdrHalf_eq_iff : ehdrHalf b i = ehdrHalf b' i ↔ b i = b' i ∧ b (i + 1) = b' (i + 1) := by
  constructor
  · intro h
    unfold ehdrHalf at h
    constructor <;>
    · apply BitVec.eq_of_toNat_eq
      omega
  · rintro ⟨h0, h1⟩
    rw [ehdrHalf, ehdrHalf, h0, h1]

/-- The bytes that are stored over a field are those of the field. -/
lemma ehdrHalf_overlay_iff : ehdrHalf (overlay b l) i = ehdrHalf b i ↔
    ∀ o, i ≤ o → o < i + 2 → o < l.length → l.getD o 0 = b o := by
  have hbyte : ∀ o, overlay b l o = b o ↔ (o < l.length → l.getD o 0 = b o) := by
    intro o
    unfold overlay
    split_ifs with ho
    · exact ⟨fun h _ => h, fun h => h ho⟩
    · exact ⟨fun _ h => absurd h ho, fun _ => rfl⟩
  rw [ehdrHalf_eq_iff, hbyte, hbyte]
  constructor
  · rintro ⟨h0, h1⟩ o hio hoi
    obtain rfl | rfl : o = i ∨ o = i + 1 := by omega
    · exact h0
    · exact h1
  · intro h
    exact ⟨h i le_rfl (by omega), h (i + 1) (by omega) (by omega)⟩

lemma entry_length : (f.entry k).length =
    min f.phentsize (f.bytes.length - (f.phoff + k * f.phentsize)) := by
  rw [entry, List.length_take, List.length_drop]

/-- The offset of an entry that is reached does not wrap: the entry before it ends in the file. -/
lemma offset_lt (h : ∀ j < k, f.Loads segment stack j) : f.phoff + k * f.phentsize < 2 ^ 32 := by
  have hm : maxfilesize.toNat = 0x400000 := rfl
  have hf := f.length_le
  have hoff : f.phoff < 2 ^ 32 := (ePhoff f.contents).isLt
  obtain - | k := k
  · omega
  · have hfull := (h k (Nat.lt_succ_self k)).1
    rw [entry_length] at hfull
    rw [Nat.succ_mul]
    rcases Nat.eq_zero_or_pos f.phentsize with hz | hpos
    · rw [hz]
      omega
    · omega

/-- The entry that a round reads. -/
lemma readn_entry (h : ∀ j < k, f.Loads segment stack j) :
    f.readn (BitVec.ofNat 32 f.phentsize) (BitVec.ofNat 32 (f.phoff + k * f.phentsize)) =
      f.entry k := by
  have hsize : f.phentsize < 2 ^ 16 := ehdrHalf_lt _ _
  have hn : (BitVec.ofNat 32 f.phentsize).toNat = f.phentsize := by
    rw [BitVec.toNat_ofNat, Nat.mod_eq_of_lt (by omega)]
  rw [readn_eq (by omega), hn, BitVec.toNat_ofNat, Nat.mod_eq_of_lt (offset_lt h), entry]

/-- A field that the buffer keeps while entry `k` is read into it. -/
lemma field_bufAt_succ_iff (h : ehdrHalf (f.bufAt stack k) i = ehdrHalf f.contents i) :
    ehdrHalf (f.bufAt stack (k + 1)) i = ehdrHalf f.contents i ↔ f.Agrees k i (i + 2) := by
  have hb := ehdrHalf_eq_iff.mp h
  rw [← h, bufAt, ehdrHalf_overlay_iff]
  unfold Agrees
  refine forall_congr' fun o => forall_congr' fun hio => forall_congr' fun hoi => ?_
  have hbo : f.bufAt stack k o = f.contents o := by
    obtain rfl | rfl : o = i ∨ o = i + 1 := by omega
    · exact hb.1
    · exact hb.2
  rw [hbo]

/-! ## Rounds -/

/-- The rounds from `k` on and the end of the loop go by the header. -/
def FollowsFrom (f : ExecFile) (k : ℕ) (rounds : List PhRound) (e : LoopEnd) : Prop :=
  ∃ n, k + n ≤ f.phnum ∧ rounds = (List.range' k n).map f.headerRound ∧ f.MayEnd (k + n) e ∧
    ∀ j, k ≤ j → j < k + n → (f.entry j).length ≤ elfbufSize

variable {rounds : List PhRound} {e : LoopEnd} {r : PhRound}

lemma followsFrom_nil (hk : k ≤ f.phnum) : f.FollowsFrom k [] e ↔ f.MayEnd k e := by
  constructor
  · rintro ⟨n, -, hnil, hend, -⟩
    have hn : n = 0 := by
      have h := congrArg List.length hnil
      rw [List.length_map, List.length_range'] at h
      exact h.symm
    rwa [hn, Nat.add_zero] at hend
  · intro hend
    exact ⟨0, hk, rfl, hend, fun j hkj hj => absurd hj (by omega)⟩

/-- A round and the rounds behind it. -/
lemma followsFrom_cons : f.FollowsFrom k (r :: rounds) e ↔
    r = f.headerRound k ∧ (f.entry k).length ≤ elfbufSize ∧ f.FollowsFrom (k + 1) rounds e := by
  constructor
  · rintro ⟨n, hle, hcons, hend, hfit⟩
    obtain - | n := n
    · exact absurd hcons (List.cons_ne_nil _ _)
    · rw [List.range'_succ, List.map_cons, List.cons.injEq] at hcons
      rw [show k + (n + 1) = k + 1 + n by omega] at hle hend hfit
      exact ⟨hcons.1, hfit k le_rfl (by omega), n, hle, hcons.2, hend,
        fun j hkj hj => hfit j (by omega) hj⟩
  · rintro ⟨hr, hk0, n, hle, hrest, hend, hfit⟩
    refine ⟨n + 1, by omega, ?_, ?_, ?_⟩
    · rw [List.range'_succ, List.map_cons, hr, hrest]
    · rwa [show k + (n + 1) = k + 1 + n by omega]
    · intro j hkj hj
      rcases Nat.eq_or_lt_of_le hkj with rfl | hlt
      · exact hk0
      · exact hfit j hlt (by omega)

/-- The first test of rounds that go by the header is made with its `e_phnum`. -/
lemma FollowsFrom.phnum_eq {off : Word} (h : f.FollowsFrom k (f.phLoop segment k off b).1
    (f.phLoop segment k off b).2) : ePhnum b = f.phnum := by
  have hfirst : ∀ r rounds, (f.phLoop segment k off b).1 = r :: rounds → r.phnum = f.phnum := by
    intro r rounds hr
    obtain ⟨n, -, hmap, -, -⟩ := h
    obtain - | n := n
    · exact absurd (hr.symm.trans hmap) (List.cons_ne_nil _ _)
    · rw [hr, List.range'_succ, List.map_cons, List.cons.injEq] at hmap
      rw [hmap.1]
      rfl
  obtain ⟨n, -, -, hend, -⟩ := h
  rw [phLoop] at hfirst hend
  dsimp only at hfirst hend
  split_ifs at hfirst hend
  · exact hfirst _ _ rfl
  · exact hfirst _ _ rfl
  · exact hfirst _ _ rfl
  · exact hfirst _ _ rfl
  · exact hend.1

/-- `KeepsHeader` for the entries from `k` on. -/
structure KeepsFrom (f : ExecFile) (segment : ℕ → ElfBuf → Word) (stack : ElfBuf) (k : ℕ) :
    Prop where
  fits : ∀ j, k ≤ j → j < f.phnum → (∀ o < j, f.Loads segment stack o) →
    (f.entry j).length ≤ elfbufSize
  phentsize : ∀ j, k ≤ j → j < f.phnum → (∀ o < j, f.Loads segment stack o) → f.Agrees j 42 44
  phnum : ∀ j, k ≤ j → j < f.phnum → (∀ o ≤ j, f.Loads segment stack o) → f.Agrees j 44 46

lemma keepsFrom_zero_iff : f.KeepsFrom segment stack 0 ↔ f.KeepsHeader segment stack := by
  constructor
  · rintro ⟨h0, h1, h2⟩
    exact ⟨fun k => h0 k k.zero_le, fun k => h1 k k.zero_le, fun k => h2 k k.zero_le⟩
  · rintro ⟨h0, h1, h2⟩
    exact ⟨fun k _ => h0 k, fun k _ => h1 k, fun k _ => h2 k⟩

/-- The entry of round `k`, and the entries behind it. -/
lemma keepsFrom_iff (hk : k < f.phnum) (hreach : ∀ j < k, f.Loads segment stack j) :
    f.KeepsFrom segment stack k ↔ (f.entry k).length ≤ elfbufSize ∧ f.Agrees k 42 44 ∧
      (f.Loads segment stack k → f.Agrees k 44 46 ∧ f.KeepsFrom segment stack (k + 1)) := by
  constructor
  · rintro ⟨h0, h1, h2⟩
    refine ⟨h0 k le_rfl hk hreach, h1 k le_rfl hk hreach, fun hload => ⟨?_, ?_⟩⟩
    · apply h2 k le_rfl hk
      intro j hj
      rcases Nat.eq_or_lt_of_le hj with rfl | hlt
      · exact hload
      · exact hreach j hlt
    · exact ⟨fun j hj => h0 j (by omega), fun j hj => h1 j (by omega), fun j hj => h2 j (by omega)⟩
  · rintro ⟨h0, h1, h2⟩
    refine ⟨fun j hkj hj hr => ?_, fun j hkj hj hr => ?_, fun j hkj hj hr => ?_⟩
    · rcases Nat.eq_or_lt_of_le hkj with rfl | hlt
      · exact h0
      · exact (h2 (hr k hlt)).2.fits j hlt hj hr
    · rcases Nat.eq_or_lt_of_le hkj with rfl | hlt
      · exact h1
      · exact (h2 (hr k hlt)).2.phentsize j hlt hj hr
    · rcases Nat.eq_or_lt_of_le hkj with rfl | hlt
      · exact (h2 (hr k le_rfl)).1
      · exact (h2 (hr k hlt.le)).2.phnum j hlt hj hr

/-- The loop from entry `k` on. -/
def loopFrom (f : ExecFile) (segment : ℕ → ElfBuf → Word) (stack : ElfBuf) (k : ℕ) :
    List PhRound × LoopEnd :=
  f.phLoop segment k (BitVec.ofNat 32 (f.phoff + k * f.phentsize)) (f.bufAt stack k)

/-- The loop goes by the header from entry `k` on. -/
def LoopFollows (f : ExecFile) (segment : ℕ → ElfBuf → Word) (stack : ElfBuf) (k : ℕ) : Prop :=
  f.FollowsFrom k (f.loopFrom segment stack k).1 (f.loopFrom segment stack k).2

/-- A round of the loop, with what it reads. -/
lemma loopFrom_eq (hk : k < f.phnum) (hreach : ∀ j < k, f.Loads segment stack j)
    (hsize : ePhentsize (f.bufAt stack k) = f.phentsize)
    (hnum : ePhnum (f.bufAt stack k) = f.phnum) :
    f.loopFrom segment stack k =
      let next := f.bufAt stack (k + 1)
      let round : PhRound := ⟨f.phnum, f.phoff + k * f.phentsize, f.phentsize, (f.entry k).length,
        ePhentsize next⟩
      if elfbufSize < (f.entry k).length then ([round], .overrun)
      else if (f.entry k).length ≠ ePhentsize next then ([round], .notExec)
      else if pType next = ptLoad ∧ (segment k next).toInt < 0 then
        ([round], .failed (segment k next))
      else
        let rest := f.phLoop segment (k + 1) (BitVec.ofNat 32 (f.phoff + k * f.phentsize) +
          BitVec.ofNat 32 (ePhentsize next)) next
        (round :: rest.1, rest.2) := by
  have hoff : (BitVec.ofNat 32 (f.phoff + k * f.phentsize)).toNat = f.phoff + k * f.phentsize := by
    rw [BitVec.toNat_ofNat, Nat.mod_eq_of_lt (offset_lt hreach)]
  rw [loopFrom, phLoop, hsize, hnum, if_pos hk, readn_entry hreach, hoff]
  rfl

/-- **One round** goes by the header if its entry keeps `e_phentsize`, and then the loop goes on if
the entry loads: the next test reads `e_phnum`. -/
lemma loopFollows_iff (hk : k < f.phnum) (hreach : ∀ j < k, f.Loads segment stack j)
    (hsize : ePhentsize (f.bufAt stack k) = f.phentsize)
    (hnum : ePhnum (f.bufAt stack k) = f.phnum) : f.LoopFollows segment stack k ↔
      (f.entry k).length ≤ elfbufSize ∧ f.Agrees k 42 44 ∧
        (f.Loads segment stack k → f.Agrees k 44 46 ∧ f.LoopFollows segment stack (k + 1)) := by
  have hagree : ePhentsize (f.bufAt stack (k + 1)) = f.phentsize ↔ f.Agrees k 42 44 :=
    field_bufAt_succ_iff hsize
  have hround : (⟨f.phnum, f.phoff + k * f.phentsize, f.phentsize, (f.entry k).length,
      ePhentsize (f.bufAt stack (k + 1))⟩ : PhRound) = f.headerRound k ↔ f.Agrees k 42 44 := by
    rw [headerRound, PhRound.mk.injEq, ← hagree]
    simp only [true_and]
  rw [LoopFollows, loopFrom_eq hk hreach hsize hnum]
  dsimp only
  split_ifs with hover hshort hfail
  · rw [followsFrom_cons]
    exact ⟨fun h => absurd h.2.1 (by omega), fun h => absurd h.1 (by omega)⟩
  · rw [followsFrom_cons, followsFrom_nil hk, hround]
    have hlen : (f.entry k).length ≤ f.phentsize := entry_length.trans_le (Nat.min_le_left _ _)
    constructor
    · rintro ⟨h42, hfit, -⟩
      exact ⟨hfit, h42, fun hload => absurd (hload.1.trans (hagree.mpr h42).symm) hshort⟩
    · rintro ⟨hfit, h42, -⟩
      refine ⟨h42, hfit, k, rfl, lt_of_le_of_ne hlen ?_⟩
      rwa [← hagree.mpr h42]
  · rw [followsFrom_cons, followsFrom_nil hk, hround]
    constructor
    · rintro ⟨h42, hfit, -⟩
      exact ⟨hfit, h42, fun hload => absurd hfail hload.2⟩
    · rintro ⟨hfit, h42, -⟩
      exact ⟨h42, hfit, hfail.2⟩
  · rw [followsFrom_cons, hround]
    have hnext : f.Agrees k 42 44 → f.Loads segment stack k ∧
        f.phLoop segment (k + 1) (BitVec.ofNat 32 (f.phoff + k * f.phentsize) +
          BitVec.ofNat 32 (ePhentsize (f.bufAt stack (k + 1)))) (f.bufAt stack (k + 1)) =
        f.loopFrom segment stack (k + 1) := by
      intro h42
      rw [hagree.mpr h42, ← BitVec.ofNat_add, Nat.add_assoc, ← Nat.succ_mul]
      refine ⟨⟨?_, hfail⟩, rfl⟩
      rw [← hagree.mpr h42]
      exact not_not.mp hshort
    constructor
    · rintro ⟨h42, hfit, hrest⟩
      obtain ⟨-, hloop⟩ := hnext h42
      rw [hloop] at hrest
      exact ⟨hfit, h42, fun _ => ⟨(field_bufAt_succ_iff hnum).mp hrest.phnum_eq, hrest⟩⟩
    · rintro ⟨hfit, h42, hrest⟩
      obtain ⟨hload, hloop⟩ := hnext h42
      rw [hloop]
      exact ⟨h42, hfit, (hrest hload).2⟩

/-- What is left of the loop goes by the header if and only if what is left of the table keeps it.
The induction is on the number of entries that are left. -/
lemma loopFollows_iff_keepsFrom : ∀ d k, d + k = f.phnum → (∀ j < k, f.Loads segment stack j) →
    ePhentsize (f.bufAt stack k) = f.phentsize → ePhnum (f.bufAt stack k) = f.phnum →
    (f.LoopFollows segment stack k ↔ f.KeepsFrom segment stack k) := by
  intro d
  induction d with
  | zero =>
    intro k hdk _ _ hnum
    have hk : k = f.phnum := by omega
    rw [LoopFollows, loopFrom, phLoop, hnum, if_neg (by omega), followsFrom_nil hk.le]
    exact ⟨fun _ => ⟨fun j _ _ => by omega, fun j _ _ => by omega, fun j _ _ => by omega⟩,
      fun _ => ⟨rfl, hk⟩⟩
  | succ d ih =>
    intro k hdk hreach hsize hnum
    have hk : k < f.phnum := by omega
    rw [loopFollows_iff hk hreach hsize hnum, keepsFrom_iff hk hreach]
    refine and_congr_right fun _ => and_congr_right fun h42 => forall_congr' fun hload =>
      and_congr_right fun h44 => ?_
    refine ih (k + 1) (by omega) (fun j hj => ?_) ((field_bufAt_succ_iff hsize).mpr h42)
      ((field_bufAt_succ_iff hnum).mpr h44)
    rcases Nat.eq_or_lt_of_le (Nat.le_of_lt_succ hj) with rfl | hlt
    · exact hload
    · exact hreach j hlt

/-- The header is in `elfbuf` before the loop. -/
lemma bufAt_zero (hexec : f.Executable) (hi : i < 52) : f.bufAt stack 0 i = f.contents i := by
  have h52 : ehdrSize.toNat = 52 := rfl
  have hlen := hexec.1
  have hil : i < (f.bytes.take ehdrSize.toNat).length := by
    rw [List.length_take]
    omega
  rw [bufAt, overlay, if_pos hil, contents, List.getD_eq_getElem _ _ hil,
    List.getD_eq_getElem _ _ (by omega), List.getElem_take]

/-- The file passes the tests before the loop. -/
lemma spawnLoop_eq (hexec : f.Executable) : f.spawnLoop segment stack =
    some (f.loopFrom segment stack 0) := by
  have h52 : ehdrSize.toNat = 52 := rfl
  have hlen := hexec.1
  have hread : f.readn ehdrSize 0 = f.bytes.take ehdrSize.toNat := readn_eq (by decide)
  have hbuf : overlay stack (f.bytes.take ehdrSize.toNat) = f.bufAt stack 0 := rfl
  have helf : elfFrom (f.bufAt stack 0) := by
    have h := hexec.2
    unfold elfFrom ehdrHalf at h ⊢
    rwa [bufAt_zero hexec (by decide), bufAt_zero hexec (by decide), bufAt_zero hexec (by decide),
      bufAt_zero hexec (by decide), bufAt_zero hexec (by decide), bufAt_zero hexec (by decide)]
  have hoff : ePhoff (f.bufAt stack 0) = BitVec.ofNat 32 (f.phoff + 0 * f.phentsize) := by
    rw [Nat.zero_mul, Nat.add_zero, phoff, BitVec.ofNat_toNat, BitVec.setWidth_eq]
    unfold ePhoff ehdrWord
    rw [bufAt_zero hexec (by decide), bufAt_zero hexec (by decide), bufAt_zero hexec (by decide),
      bufAt_zero hexec (by decide)]
  unfold spawnLoop
  dsimp only
  rw [hread, hbuf, if_neg, if_neg (not_not.mpr helf), hoff]
  · rfl
  · rw [not_not, List.length_take]
    omega

/-- The loop follows the header exactly if no read spoils what it needs of it. -/
lemma followsHeader_iff_keepsHeader (hexec : f.Executable) :
    f.FollowsHeader segment stack ↔ f.KeepsHeader segment stack := by
  have hfield : ∀ i, i + 1 < 52 → ehdrHalf (f.bufAt stack 0) i = ehdrHalf f.contents i := by
    intro i hi
    rw [ehdrHalf_eq_iff]
    exact ⟨bufAt_zero hexec (by omega), bufAt_zero hexec hi⟩
  have hloop := @loopFollows_iff_keepsFrom f segment stack f.phnum 0 (Nat.add_zero _)
    (fun j hj => absurd hj j.not_lt_zero) (hfield 42 (by omega)) (hfield 44 (by omega))
  rw [← keepsFrom_zero_iff, ← hloop, FollowsHeader, LoopFollows, spawnLoop_eq hexec]
  constructor
  · rintro ⟨n, hn, e, heq, hend, hfit⟩
    rw [Option.some.injEq] at heq
    rw [heq]
    refine ⟨n, by omega, ?_, ?_, fun j _ hj => hfit j (by omega)⟩
    · rw [List.range_eq_range']
    · rwa [Nat.zero_add]
  · rintro ⟨n, hn, hrounds, hend, hfit⟩
    rw [Nat.zero_add] at hn hend
    refine ⟨n, hn, _, congrArg some (Prod.ext ?_ rfl), hend, fun j hj => hfit j j.zero_le (by omega)⟩
    rw [hrounds, List.range_eq_range']

end ExecFile

/-- **When `spawn` goes by the header**: exactly for the files whose entries keep it. -/
theorem spawn_followsHeader_iff (f : ExecFile) (segment : ℕ → ElfBuf → Word) (stack : ElfBuf)
    (hexec : f.Executable) : f.FollowsHeader segment stack ↔ f.KeepsHeader segment stack :=
  ExecFile.followsHeader_iff_keepsHeader hexec

/-- A header with one entry of `n` bytes behind it. -/
def headerBytes (n : BitVec 8) : List (BitVec 8) :=
  [0x7f, 0x45, 0x4c, 0x46] ++ List.replicate 12 0 ++ [2, 0] ++ List.replicate 10 0 ++
    [52, 0, 0, 0] ++ List.replicate 10 0 ++ [n, 0, 1, 0] ++ List.replicate 6 0

/-- A file with one entry, which is of the type `PT_NULL`. -/
def oneEntry (n : BitVec 8) : ExecFile where
  bytes := headerBytes n ++ List.replicate n.toNat 0
  length_le := by
    have hm : maxfilesize.toNat = 0x400000 := rfl
    have hn := n.isLt
    simp only [headerBytes, List.length_append, List.length_replicate, List.length_cons,
      List.length_nil]
    omega

/-- An entry of the size of an `Elf32_Phdr`. -/
theorem spawn_followsHeader_oneEntry :
    (oneEntry 32).FollowsHeader (fun _ _ => 0) (fun _ => 0) :=
  (spawn_followsHeader_iff (oneEntry 32) _ _ (by decide)).mpr
    ((oneEntry 32).keepsHeader_of_le _ _ (by decide))

/-- **A header that is overwritten**: after the entry is read, the field that its size is compared
with is one of its own bytes. -/
theorem not_spawn_followsHeader : ¬ ∀ (f : ExecFile) (segment : ℕ → ElfBuf → Word) (stack : ElfBuf),
    f.Executable → f.FollowsHeader segment stack := by
  intro hall
  have hexec : (oneEntry 64).Executable := by decide
  have hkeep := (ExecFile.followsHeader_iff_keepsHeader hexec).mp
    (hall (oneEntry 64) (fun _ _ => 0) (fun _ => 0) hexec)
  have hentry := hkeep.phentsize 0 (by decide) (fun j hj => absurd hj j.not_lt_zero) 42 le_rfl
    (by decide) (by decide)
  exact absurd hentry (by decide)

end MosVolca
