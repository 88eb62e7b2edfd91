import MosVolca.Fs.Walks
import MosVolca.Tools.BitmapBlocks
import MosVolca.Tools.Owners

/-!
# The image is consistent

The functions that write the entries keep the holders of the blocks, so that on the disk that the program
leaves every block that was handed out is held once. The server asks for no more than that.

## Main definitions

* `MosVolca.Housed` — the invariant between two entries.

## Main results

* `MosVolca.writeEntries_housed` — what is in a directory.
* `MosVolca.formatDisk_consistent` — the disk that the program leaves.
-/

namespace MosVolca

open Bounded DiskImage

variable {n : ℕ} {s s' s1 : DiskImage} {C : ℕ → ℕ → Prop} {c c' : Blocks} {f g : FilePtr}
  {cnt : FilePtr → ℕ} {E E' : Set ℕ} {p q : Slot} {b bno i j k m w : ℕ} {x size type : Word}
  {name data : List Char8}

/-- Every block is held by one file, and the directories have no pointers beyond their sizes. -/
structure Housed (n : ℕ) (s : DiskImage) : Prop where
  owned : Owned n s ∅
  tight : TightDirs s

/-! ## A new file -/

section Fill

variable (h : Typed n s cnt) (ho : Owned n s E) (hfree : FreeEntry s b j)
  (hg : AddsBlocks s (InStruct (FilePtr.entry b j)) s')

include h ho hfree hg in
/-- The files that were there keep their pointers. -/
lemma FreeEntry.agrees (hf : InImage s f) : Agrees s.disk s'.disk f := by
  apply hg.agrees (h.block_lt hf) (fun hi => (ho.index f hf hi).1)
  · intro w _ hw
    exact hfree.not_inStruct h hf (by omega)
  · rintro h0 i ⟨hb, -⟩
    have hi := ho.index f hf h0
    simp only [FilePtr.entry] at hb
    rw [hb] at hi
    exact absurd (hi.2.symm.trans hfree.block.2) (by simp)

variable (hname : s'.nameByte (FilePtr.entry b j) 0 ≠ 0)
  (hzero : ∀ w, 34 ≤ w → w ≤ 44 → s'.disk b (64 * j + w) = 0)

include h ho hfree hg hname hzero in
/-- **A structure becomes a file** that holds nothing. -/
lemma Owned.fill (hE : ∀ b < s'.nextbno, b ∈ E' ↔ b ∈ E ∨ s.nextbno ≤ b) : Owned n s' E' := by
  have hiff : ∀ f, InImage s' f ↔ InImage s f ∨ f = FilePtr.entry b j :=
    fun f => inImage_fill h hfree hg hname
  apply hg.owned ho ?_ ?_ hE
  · intro f hf
    exact ⟨(hiff f).mpr (.inl hf), (hfree.agrees h ho hg hf).samePointers⟩
  · intro f hf hold p b
    obtain rfl := ((hiff f).mp hf).resolve_left hold
    exact not_holds_of_zero hzero

include h ho hfree hg hname hzero in
lemma TightDirs.fill (ht : TightDirs s) : TightDirs s' := by
  intro f hf
  rcases (inImage_fill h hfree hg hname).mp hf with hold | rfl
  · exact (ht f hold).congr (hfree.agrees h ho hg hold)
  · intro _ i b hb
    exact absurd hb (not_holds_of_zero hzero)

end Fill

/-! ## Heads of structures -/

lemma addsBlocks_withHead (hlen : name.length ≤ 255) (s : DiskImage) (g : FilePtr) (size type : Word) :
    AddsBlocks s (InStruct g) (s.withHead g name size type) where
  next := le_rfl
  type _ _ := rfl
  new _ hge hb := absurd hb.1 (not_lt.mpr hge)
  same _ _ _ hw := withHead_disk_of_not hlen hw

/-- A name that fits into its structure leaves the pointers alone. -/
lemma withHead_pointer (hlen : name.length < maxnamelen) (hw : 34 ≤ w) :
    (s.withHead g name size type).disk g.block (g.word + w) = s.disk g.block (g.word + w) := by
  have hlen : name.length < 128 := hlen
  rw [withHead_disk fun he => by omega, storeBytes_disk_of_disjoint]
  rw [List.length_append, List.length_singleton]
  omega

/-- What is left when a structure without a name gets a head. -/
structure Heads (n : ℕ) (s : DiskImage) (cnt : FilePtr → ℕ) (g : FilePtr) (type : Word)
    (s' : DiskImage) : Prop where
  fills : FillsTyped n s cnt g s'
  next : s'.nextbno = s.nextbno
  owned : ∀ {E : Set ℕ}, Owned n s E → Owned n s' E
  tight : ∀ {E : Set ℕ}, Owned n s E → TightDirs s → TightDirs s'
  type_eq : wordAt s'.disk g.type = type
  empty : ∀ p b, ¬ Holds s'.disk g p b

/-- The head is all that changes, and the pointers stay zeros. -/
lemma FreeEntry.heads (type : Word) (h : Typed n s cnt) (hfree : FreeEntry s b j)
    (hg : AddsBlocks s (InStruct (FilePtr.entry b j)) s') (hs : Sound n s')
    (hnext : s'.nextbno = s.nextbno) (hname : s'.nameByte (FilePtr.entry b j) 0 ≠ 0)
    (hzero : ∀ w, 34 ≤ w → w ≤ 44 → s'.disk b (64 * j + w) = 0)
    (htype : wordAt s'.disk (FilePtr.entry b j).type = type) :
    Heads n s cnt (FilePtr.entry b j) type s' where
  fills := h.fill hfree hg hs hname fun _ => hzero 44 (by decide) (by decide)
  next := hnext
  owned ho := by
    apply ho.fill h hfree hg hname hzero
    intro b hb
    rw [hnext] at hb
    simp [hb]
  tight ho ht := ht.fill h ho hfree hg hname hzero
  type_eq := htype
  empty _ _ := not_holds_of_zero hzero

/-- **A structure gets the head of a file or of a link.** -/
lemma FreeEntry.heads_withHead (size type : Word) (h : Typed n s cnt) (hfree : FreeEntry s b j)
    (hname : name.getD 0 0 ≠ 0) (hlen : name.length < maxnamelen) :
    Heads n s cnt (FilePtr.entry b j) type (s.withHead (FilePtr.entry b j) name size type) := by
  have hlen' : name.length < 128 := hlen
  apply hfree.heads type h (addsBlocks_withHead (by omega) s _ _ _) (h.sound.withHead hfree.block.1) rfl
  · exact withHead_name hname (hfree.word (w := 0) (by decide))
  · intro w hw hw'
    rw [← hfree.word (show w < 64 by omega)]
    exact withHead_pointer (g := FilePtr.entry b j) hlen hw
  · exact withHead_type

/-! ## Files -/

lemma giveBytes_type (s : DiskImage) (l : List Char8) : (s.giveBytes l).type s.nextbno = .data :=
  Function.update_self _ _ _

/-- A block with bytes is handed out, and nobody holds it. -/
lemma Housed.giveBytes (hh : Housed n s) (h : Typed n s cnt) (hlt : s.nextbno < n) (l : List Char8) :
    Typed n (s.giveBytes l) cnt ∧ Owned n (s.giveBytes l) {s.nextbno} ∧ TightDirs (s.giveBytes l) := by
  have hg := addsBlocks_giveBytes s l
  have hC : ∀ b w, (fun _ _ => False : ℕ → ℕ → Prop) b w → ¬ IsEntries s b ∧ ¬ IsIndex s b ∧ b ≠ 1 :=
    fun _ _ hc => hc.elim
  refine ⟨h.keep hg hC (h.sound.giveBytes hlt), hh.owned.keep h hg hC ?_,
    hh.tight.keep h hh.owned hg hC⟩
  intro b hb
  change b < s.nextbno + 1 at hb
  simp only [Set.mem_singleton_iff, Set.mem_empty_iff_false, false_or]
  omega

/-- The pointers of a file stay when a block with bytes is handed out. -/
lemma Housed.giveBytes_agrees (hh : Housed n s) (h : Typed n s cnt) (hf : InImage s f)
    (l : List Char8) : InImage (s.giveBytes l) f ∧ Agrees s.disk (s.giveBytes l).disk f := by
  have hg := addsBlocks_giveBytes s l
  have hC : ∀ b w, (fun _ _ => False : ℕ → ℕ → Prop) b w → ¬ IsEntries s b ∧ ¬ IsIndex s b ∧ b ≠ 1 :=
    fun _ _ hc => hc.elim
  exact ⟨(hg.inImage_iff (onlyFields_of_not hC)).mpr hf, hg.keep_agrees h hh.owned hC hf⟩

/-- A file that is no directory gets a block that nobody held. -/
lemma LinksOwned.housed (hl : LinksOwned n s g k bno s') (h : Typed n s cnt) (hg : InImage s g)
    (hadds : AddsBlocks s (Touched s g (cnt g)) s') (hreg : wordAt s'.disk g.type ≠ ftypeDir)
    (ht : TightDirs s) : Housed n s' := by
  refine ⟨hl.owned, fun f hf => ?_⟩
  by_cases hne : f = g
  · rw [hne]
    exact fun hd => absurd hd hreg
  · have hf1 := (hadds.inImage_iff (onlyFields_touched h hg)).mp hf
    exact (ht f hf1).congr (hl.other f hf1 hne)

/-- **The loop of `write_file`** gives its blocks to the file. -/
theorem readBlocks_housed (hn : n ≤ 0x40000) (h : Typed n s cnt) (hh : Housed n s)
    (hg : InImage s g) (hreg : wordAt s.disk g.type ≠ ftypeDir) (hk : cnt g = k)
    (hclear : k ≤ 10 → wordAt s.disk g.indirect = 0)
    (hheld : ∀ i b, Holds s.disk g (.data i) b → i < k) (hm : dataBlocks data.length = m)
    (hrun : readBlocks n s g k data = .ok s') : Housed n s' := by
  induction m generalizing s cnt k data with
  | zero =>
    obtain rfl : data = [] := List.length_eq_zero_iff.mp (by unfold dataBlocks at hm; omega)
    rw [readBlocks] at hrun
    obtain ⟨-, -, hrun⟩ := bind_ok_iff.mp hrun
    obtain rfl := Except.ok.inj hrun
    exact hh
  | succ m ih =>
    have hlen : 0 < data.length := by
      unfold dataBlocks at hm
      omega
    obtain ⟨x, l, rfl⟩ := List.exists_cons_of_length_pos hlen
    rw [readBlocks] at hrun
    obtain ⟨-, -, hrun⟩ := bind_ok_iff.mp hrun
    obtain ⟨q, hnext, hrun⟩ := bind_ok_iff.mp hrun
    obtain ⟨hroom, rfl⟩ := nextBlock_cases hnext
    obtain ⟨s2, hsave, hrun⟩ := bind_ok_iff.mp hrun
    -- the block with the bytes
    obtain ⟨s1, hs1⟩ : ∃ s1, s.giveBytes ((x :: l).take 4096) = s1 := ⟨_, rfl⟩
    obtain ⟨h1, ho1, ht1⟩ := hh.giveBytes h hroom ((x :: l).take 4096)
    obtain ⟨hg1, hagrees⟩ := hh.giveBytes_agrees h hg ((x :: l).take 4096)
    change saveBlockLink n (s.giveBytes ((x :: l).take 4096)) g k s.nextbno = .ok s2 at hsave
    rw [hs1] at hsave h1 ho1 ht1 hg1 hagrees
    have hlt1 : s.nextbno < s1.nextbno := by
      rw [← hs1]
      exact Nat.lt_succ_self _
    have hreg1 : wordAt s1.disk g.type ≠ ftypeDir := hagrees.type.trans_ne hreg
    have hempty : ∀ b, ¬ Holds s1.disk g (.data k) b := fun b hb =>
      absurd (hheld k b (hagrees.holds_iff.mp hb)) (lt_irrefl k)
    -- the pointer to it
    have hlink := saveBlockLink_typed h1 hg1 hn hk hlt1 (fun hd => absurd hd hreg1)
      (fun h10 => hagrees.indirect.trans (hclear h10.le)) hsave
    have hdata : s1.type s.nextbno = .data := by
      rw [← hs1]
      exact giveBytes_type s _
    have hl := saveBlockLink_owned h1 ho1 hg1 hn h.ge hlt1 hempty (fun _ => hdata) (h.block_lt hg)
      hlink hsave
    have hg2 : InImage s2 g := (hlink.adds.inImage_iff (onlyFields_touched h1 hg1)).mpr hg1
    have hreg2 : wordAt s2.disk g.type ≠ ftypeDir := hlink.type.trans_ne hreg1
    have hdrop : dataBlocks ((x :: l).drop 4096).length = m := by
      rw [List.length_drop]
      unfold dataBlocks at hm ⊢
      omega
    apply ih hlink.typed (hl.housed h1 hg1 hlink.adds hreg2 ht1) hg2 hreg2
      ((Function.update_self _ _ _).trans (by rw [hk])) _ _ hdrop hrun
    · intro hle
      exact (hlink.indirect (by omega)).trans (hagrees.indirect.trans (hclear (by omega)))
    · intro i b hb
      rcases (hl.data i b).mp hb with hold | ⟨rfl, -⟩
      · have := hheld i b (hagrees.holds_iff.mp hold)
        omega
      · exact Nat.lt_succ_self _

/-! ## Entries -/

section Entry

variable (h : Typed n s cnt) (hz : Sized s cnt) (hn : n ≤ 0x40000) (hf : InImage s f)
  (hd : wordAt s.disk f.type = ftypeDir) (hh : Housed n s)

include h hz hn hf hd hh in
/-- `create_file` gives a structure without a name. -/
lemma createFile_housed {r : FilePtr × DiskImage} (hrun : createFile n s f = .ok r) :
    ∃ cnt' b j, Formats n s r.2 cnt' ∧ Housed n r.2 ∧ r.1 = FilePtr.entry b j ∧ FreeEntry r.2 b j := by
  obtain ⟨cnt', b, j, hformats, hg, hfree⟩ := createFile_typed h hz hn hf hd hrun
  obtain ⟨howned, htight⟩ := createFile_owned h hz hn hf hd hh.owned hh.tight hrun
  exact ⟨cnt', b, j, hformats, ⟨howned, htight⟩, hg, hfree⟩

include h hz hn hf hd hh in
/-- **`write_file`** gives the blocks to the file. -/
lemma writeFile_housed (hname : name.getD 0 0 ≠ 0) (hlen : name.length < maxnamelen)
    (hrun : writeFile n s f name data = .ok s') : Housed n s' := by
  unfold writeFile at hrun
  obtain ⟨⟨g, s1⟩, hcreate, hrun⟩ := bind_ok_iff.mp hrun
  obtain ⟨cnt1, b, j, hformats, hh1, hg, hfree⟩ := createFile_housed h hz hn hf hd hh hcreate
  dsimp only at hg hformats hh1 hfree
  subst hg
  change readBlocks n (s1.withHead (FilePtr.entry b j) name (BitVec.ofNat 32 data.length) ftypeReg)
    (FilePtr.entry b j) 0 data = .ok s' at hrun
  have hheads := hfree.heads_withHead (BitVec.ofNat 32 data.length) ftypeReg hformats.typed
    hname hlen
  have hreg := hheads.type_eq.trans_ne (show ftypeReg ≠ ftypeDir by decide)
  apply readBlocks_housed hn hheads.fills.typed
    ⟨hheads.owned hh1.owned, hheads.tight hh1.owned hh1.tight⟩ hheads.fills.mem hreg
    (Function.update_self _ _ _) _ _ rfl hrun
  · intro _
    by_contra h0
    exact hheads.empty _ _ (holds_indirect h0)
  · intro i b hb
    exact absurd hb (hheads.empty _ _)

/-- A structure stays free when a block with bytes is handed out. -/
lemma FreeEntry.giveBytes (hfree : FreeEntry s b j) (l : List Char8) :
    FreeEntry (s.giveBytes l) b j := by
  have hlt := hfree.block.1
  have hdisk : (s.giveBytes l).disk b = s.disk b := giveBytes_disk_of_lt hlt
  refine ⟨(addsBlocks_giveBytes s l).isEntries hfree.block, hfree.lt, fun i hi => ?_, fun w hw hw' => ?_⟩
  · have hbyte : (s.giveBytes l).nameByte (FilePtr.entry b i) 0 = s.nameByte (FilePtr.entry b i) 0 :=
      nameByte_congr (congrFun hdisk _)
    rw [hbyte]
    exact hfree.named i hi
  · rw [hdisk]
    exact hfree.zero w hw hw'

include h hz hn hf hd hh in
/-- **`write_symlink`** gives the block to the link. -/
lemma writeSymlink_housed (hname : name.getD 0 0 ≠ 0) (hlen : name.length < maxnamelen)
    (hrun : writeSymlink n s f name data = .ok s') : Housed n s' := by
  unfold writeSymlink at hrun
  obtain ⟨⟨g, s1⟩, hcreate, hrun⟩ := bind_ok_iff.mp hrun
  obtain ⟨cnt1, b, j, hformats, hh1, hg, hfree⟩ := createFile_housed h hz hn hf hd hh hcreate
  dsimp only at hg hformats hh1 hfree
  subst hg
  obtain ⟨-, -, hrun⟩ := bind_ok_iff.mp hrun
  obtain ⟨q, hnext, hrun⟩ := bind_ok_iff.mp hrun
  obtain ⟨hroom, rfl⟩ := nextBlock_cases hnext
  have hroom : s1.nextbno < n := hroom
  -- the block is handed out before or after the head is written: that is the same
  change saveBlockLink n ((s1.giveBytes (data.take 4096)).withHead (FilePtr.entry b j) name
    (BitVec.ofNat 32 (data.take 4096).length) ftypeLnk) (FilePtr.entry b j) 0 s1.nextbno = .ok s' at hrun
  obtain ⟨h2, ho2, ht2⟩ := hh1.giveBytes hformats.typed hroom (data.take 4096)
  have hheads := (hfree.giveBytes (data.take 4096)).heads_withHead
    (BitVec.ofNat 32 (data.take 4096).length) ftypeLnk h2 hname hlen
  have hreg := hheads.type_eq.trans_ne (show ftypeLnk ≠ ftypeDir by decide)
  have hlt : s1.nextbno < (s1.giveBytes (data.take 4096)).nextbno := Nat.lt_succ_self _
  have hlink := saveBlockLink_typed hheads.fills.typed hheads.fills.mem hn (Function.update_self _ _ _)
    hlt (fun hdir => absurd hdir hreg) (fun h10 => absurd h10 (by decide)) hrun
  have hl := saveBlockLink_owned hheads.fills.typed (hheads.owned ho2) hheads.fills.mem hn
    hformats.typed.ge hlt (fun b => hheads.empty _ b)
    (fun _ => giveBytes_type s1 (data.take 4096)) hfree.block.1 hlink hrun
  exact hl.housed hheads.fills.typed hheads.fills.mem hlink.adds (hlink.type.trans_ne hreg)
    (hheads.tight ho2 ht2)

include h hz hn hf hd hh in
/-- **`write_directory`** before the entries: the new directory holds nothing. -/
lemma makeDirectory_housed {r : FilePtr × DiskImage} (hname : name.getD 0 0 ≠ 0)
    (hrun : makeDirectory n s f name = .ok r) : Housed n r.2 := by
  unfold makeDirectory at hrun
  obtain ⟨⟨g, s1⟩, hcreate, hrun⟩ := bind_ok_iff.mp hrun
  obtain ⟨cnt1, b, j, hformats, hh1, hg, hfree⟩ := createFile_housed h hz hn hf hd hh hcreate
  dsimp only at hg hformats hh1 hfree hrun
  subst hg
  split_ifs at hrun with hend
  obtain rfl := Except.ok.inj hrun
  have hhead := hfree.dirHead hformats.typed.sound hname
  have hheads := hfree.heads ftypeDir hformats.typed hhead.adds hhead.sound hhead.next hhead.named
    (fun w hw hw' => hhead.zero w (by omega) (by omega) (by omega)) hhead.type
  exact ⟨hheads.owned hh1.owned, hheads.tight hh1.owned hh1.tight⟩

end Entry

namespace HostDir

lemma OnHost.hostNames {d : HostDir} (h : d.OnHost) (hs : d.Short) : d.HostNames := by
  induction d with
  | nil => trivial
  | file name data rest ih => exact ⟨⟨h.1, by have := hs.1; unfold maxnamelen at this; omega⟩, ih h.2.2 hs.2⟩
  | link name target rest ih =>
    exact ⟨⟨h.1, by have := hs.1; unfold maxnamelen at this; omega⟩, ih h.2.2 hs.2⟩
  | dir name children rest ihc ihr =>
    exact ⟨⟨h.1, by have := hs.1; unfold maxnamelen at this; omega⟩, ihc h.2.1 hs.2.1, ihr h.2.2 hs.2.2⟩

lemma Short.clear {d : HostDir} (h : d.Short) : d.Clear := by
  induction d with
  | nil => trivial
  | file name data rest ih => exact ⟨.inl (by have := h.1; unfold maxnamelen at this; omega), ih h.2⟩
  | link name target rest ih => exact ih h.2
  | dir name children rest ihc ihr => exact ⟨ihc h.2.1, ihr h.2.2⟩

end HostDir

/-- **`write_directory`** keeps every block with its holder. -/
theorem writeEntries_housed {d : HostDir} (hn : n ≤ 0x40000) (h : Typed n s cnt) (hz : Sized s cnt)
    (hf : InImage s f) (hd : wordAt s.disk f.type = ftypeDir) (hh : Housed n s) (hhost : d.OnHost)
    (hshort : d.Short) (hrun : writeEntries n s f d = .ok s') : Housed n s' := by
  induction d generalizing s s' f cnt with
  | nil =>
    obtain rfl := Except.ok.inj hrun
    exact hh
  | file name data rest ih =>
    obtain ⟨⟨hname, hlen⟩, -⟩ := hhost.hostNames hshort
    obtain ⟨s1, hfile, hrun⟩ := bind_ok_iff.mp hrun
    obtain ⟨cnt1, h1⟩ := writeFile_typed h hz hn hf hd hname hlen (hshort.clear).1 hfile
    have hh1 := writeFile_housed h hz hn hf hd hh hname hshort.1 hfile
    obtain ⟨hf1, htype⟩ := h1.stay f hf
    exact ih h1.typed h1.sized hf1 (htype.trans hd) hh1 hhost.2.2 hshort.2 hrun
  | link name target rest ih =>
    obtain ⟨⟨hname, hlen⟩, -⟩ := hhost.hostNames hshort
    obtain ⟨s1, hlink, hrun⟩ := bind_ok_iff.mp hrun
    obtain ⟨cnt1, h1⟩ := writeSymlink_typed h hz hn hf hd hname hlen hlink
    have hh1 := writeSymlink_housed h hz hn hf hd hh hname hshort.1 hlink
    obtain ⟨hf1, htype⟩ := h1.stay f hf
    exact ih h1.typed h1.sized hf1 (htype.trans hd) hh1 hhost.2.2 hshort.2 hrun
  | dir name children rest ihc ihr =>
    obtain ⟨⟨hname, -⟩, hchildren, -⟩ := hhost.hostNames hshort
    obtain ⟨r, hmake, hrun⟩ := bind_ok_iff.mp hrun
    obtain ⟨s2, hin, hrun⟩ := bind_ok_iff.mp hrun
    obtain ⟨cnt1, h1, hr, hdir⟩ := makeDirectory_typed h hz hn hf hd hname hmake
    have hh1 := makeDirectory_housed h hz hn hf hd hh hname hmake
    obtain ⟨cnt2, h2⟩ := writeEntries_typed hn h1.typed h1.sized hr hdir hchildren
      (hshort.clear).1 hin
    have hh2 := ihc h1.typed h1.sized hr hdir hh1 hhost.2.1 hshort.2.1 hin
    obtain ⟨hf2, htype⟩ := (h1.stay.trans h2.stay) f hf
    exact ihr h2.typed h2.sized hf2 (htype.trans hd) hh2 hhost.2.2 hshort.2.2 hrun

/-! ## The disk without entries -/

/-- The bitmap byte by byte. -/
lemma test_bitsOf (c : Blocks) (b : ℕ) : Bitmap.test (bitsOf c) b =
    (ByteWords.get (c (2 + b / 32768)) (b % 32768 / 8)).getLsbD (b % 8) := by
  have hdiv : b / 32 / 1024 = b / 32768 := by omega
  have hmod : b / 32 % 1024 = b % 32768 / 8 / 4 := by omega
  have hbit : b % 32 = 8 * (b % 32768 / 8 % 4) + b % 8 := by omega
  unfold Bitmap.test bitsOf ByteWords.get
  rw [hdiv, hmod, hbit]
  simp [Nat.mod_lt b (show 0 < 8 by decide)]

/-- The bytes of a block after several are written. -/
lemma get_storeBytes_self (s : DiskImage) (b k : ℕ) (l : List Char8) (j : ℕ) :
    ByteWords.get ((s.storeBytes b k l).disk b) j =
      if k ≤ j ∧ j < k + l.length then l.getD (j - k) 0 else ByteWords.get (s.disk b) j := by
  have hself : (s.storeBytes b k l).disk b = ByteWords.put (s.disk b) k l := Function.update_self _ _ _
  rw [hself]
  exact ByteWords.get_put

/-- What `init_disk` writes, after it has set the bitmap. -/
lemma initDisk_eq (hrun : initDisk n = .ok s) : ∃ s0 : DiskImage,
    s = (((s0.store ⟨1, 0⟩ fsMagic).store ⟨1, 1⟩ (BitVec.ofNat 32 n)).store
      FilePtr.root.type ftypeDir).strcpy FilePtr.root [slash] ∧ (∀ w, s0.disk 1 w = 0) ∧
    ∀ i, ∀ j < 4096, ByteWords.get (s0.disk i) j =
      if i = 2 + (nbitblock n - 1) ∧ n ≠ nbitblock n * 32768 ∧ n % 32768 / 8 ≤ j then 0
      else ByteWords.get (onesInBitmap n i) j := by
  have hone : ∀ w, onesInBitmap n 1 w = 0 := fun w => if_neg (by omega)
  unfold initDisk at hrun
  obtain ⟨-, -, hrun⟩ := bind_ok_iff.mp hrun
  obtain rfl := Except.ok.inj hrun
  by_cases hdiv : n ≠ nbitblock n * 32768
  · simp only [if_pos hdiv]
    refine ⟨_, rfl, fun w => ?_, fun i j hj => ?_⟩
    · rw [storeBytes_disk_of_ne (by omega)]
      exact hone w
    · by_cases hi : i = 2 + (nbitblock n - 1)
      · subst hi
        rw [get_storeBytes_self, List.length_replicate]
        simp only [hdiv, true_and, ne_eq, not_false_eq_true]
        split_ifs with hle hle' hle'
        · exact List.getD_replicate _ (by omega)
        · exact absurd hle.1 hle'
        · exact absurd ⟨hle', by omega⟩ hle
        · rfl
      · rw [storeBytes_disk_of_ne hi, if_neg fun he => hi he.1]
  · simp only [if_neg hdiv]
    refine ⟨_, rfl, hone, fun i j hj => ?_⟩
    rw [if_neg fun he => hdiv he.2.1]

/-- The bits of the blocks are set in the bitmap, but for those of the last byte if it is not full. -/
lemma initDisk_bit (hn : 4 ≤ n) (hrun : initDisk n = .ok s) (hb : b < n) :
    Bitmap.test (bitsOf s.disk) b = decide (b / 8 < n / 8) := by
  obtain ⟨s0, rfl, -, hbytes⟩ := initDisk_eq hrun
  have hcount : nbitblock n = (n + 32767) / 32768 := rfl
  have hblock : 2 + b / 32768 ≠ 1 := by omega
  have hones : (ByteWords.get (onesInBitmap n (2 + b / 32768)) (b % 32768 / 8)).getLsbD (b % 8) =
      true := by
    have hword : onesInBitmap n (2 + b / 32768) (b % 32768 / 8 / 4) = 0xFFFFFFFF := by
      apply if_pos
      omega
    have hbits : ∀ j < 4, ∀ k < 8, ((0xFFFFFFFF#32 >>> (8 * j)).setWidth 8).getLsbD k = true := by
      decide
    unfold ByteWords.get
    rw [hword]
    exact hbits _ (Nat.mod_lt _ (by decide)) _ (Nat.mod_lt _ (by decide))
  rw [test_bitsOf, DiskImage.strcpy, storeBytes_disk_of_ne (show _ ≠ FilePtr.root.block from hblock)]
  have hsame : ∀ w, (((s0.store ⟨1, 0⟩ fsMagic).store ⟨1, 1⟩ (BitVec.ofNat 32 n)).store
      FilePtr.root.type ftypeDir).disk (2 + b / 32768) w = s0.disk (2 + b / 32768) w := by
    intro w
    rw [store_disk_of_ne fun he => hblock he.1, store_disk_of_ne fun he => hblock he.1,
      store_disk_of_ne fun he => hblock he.1]
  rw [funext hsame, hbytes _ _ (by omega)]
  split_ifs with hlast
  · rw [decide_eq_false (by omega)]
    simp
  · rw [hones, decide_eq_true]
    omega

/-- The words of the root behind its size and its type. -/
lemma initDisk_zero (hrun : initDisk n = .ok s) (hw : 34 ≤ w) :
    s.disk FilePtr.root.block (FilePtr.root.word + w) = 0 := by
  obtain ⟨s0, rfl, hzero, -⟩ := initDisk_eq hrun
  rw [DiskImage.strcpy, storeBytes_disk_of_disjoint (by simp [FilePtr.root]; omega),
    store_disk_of_ne (by simp [FilePtr.root, FilePtr.type]; omega),
    store_disk_of_ne (by simp only [FilePtr.root]; omega),
    store_disk_of_ne (by simp only [FilePtr.root]; omega)]
  exact hzero _

/-- The root holds nothing. -/
lemma initDisk_root (hrun : initDisk n = .ok s) : ¬ Holds s.disk FilePtr.root p b := by
  apply not_holds_of_zero
  intro w hw _
  exact initDisk_zero hrun hw

/-- The disk without entries: no block for data has been handed out. -/
lemma IsFresh.housed (h : IsFresh n s) (hrun : initDisk n = .ok s) : Housed n s := by
  obtain ⟨ht, -⟩ := h.typed hrun
  have hroot : ∀ {f}, InImage s f → f = FilePtr.root := fun {f} hf => by
    refine hf.block.resolve_right fun hb => ?_
    have htype := initDisk_type hrun f.block
    rw [hb.2] at htype
    split_ifs at htype
  have hnot : ∀ f p b, InImage s f → ¬ Holds s.disk f p b := by
    intro f p b hf
    rw [hroot hf]
    exact initDisk_root hrun
  refine ⟨⟨?_, fun f hf h0 => ?_, fun f i b hb => ?_, fun x b hb => ?_⟩, fun f hf _ i b hb => ?_⟩
  · rw [h.next]
    exact Custody.empty fun x b hx => hnot _ _ _ hx.1 hx.2
  · exact absurd (holds_indirect h0) (hnot _ _ _ hf)
  · exact absurd hb.2 (hnot _ _ _ hb.1)
  · exact absurd hb.2 (hnot _ _ _ hb.1)
  · exact absurd hb (hnot _ _ _ hf)

/-! ## The program -/

/-- **The loop of `flush_bitmap`** clears the bits of the blocks that were handed out, and no other. -/
lemma flushBits_test (hn : 4 ≤ n) (hk : k ≤ n) :
    ∃ c', (List.range' 0 k).foldlM (flushBit n) c = .ok c' ∧
      ∀ b, Bitmap.test (bitsOf c') b = (Bitmap.test (bitsOf c) b && decide (k ≤ b)) := by
  induction k with
  | zero => exact ⟨c, rfl, fun b => by simp⟩
  | succ k ih =>
    obtain ⟨c1, hrun, htest⟩ := ih (by omega)
    obtain ⟨c2, hstep, -, htest2⟩ := flushBit_spec (c := c1) hn (by omega : k < n)
    refine ⟨c2, ?_, fun b => ?_⟩
    · rw [List.range'_1_concat, List.foldlM_append, hrun, ok_then, Nat.zero_add, List.foldlM_cons,
        hstep]
      rfl
    · rw [htest2, htest, Bool.and_assoc, ← Bool.decide_and]
      congr 1
      exact decide_eq_decide.mpr (by omega)

/-- What `flush_bitmap` leaves. -/
lemma flushBitmap_cases (hn : 4 ≤ n) (hle : s1.nextbno ≤ n) (hrun : flushBitmap n s1 = .ok s) :
    ∃ c', s = { s1 with disk := c' } ∧ (∀ b w, ¬ IsReserved n b → c' b w = s1.disk b w) ∧
      ∀ b, Bitmap.test (bitsOf c') b =
        (Bitmap.test (bitsOf s1.disk) b && decide (s1.nextbno ≤ b)) := by
  obtain ⟨c', hbits, hsame, -⟩ := flushBits_spec (c := s1.disk) hn hle
  obtain ⟨c'', hbits', htest⟩ := flushBits_test (c := s1.disk) hn hle
  obtain rfl := Except.ok.inj (hbits.symm.trans hbits')
  unfold flushBitmap at hrun
  rw [hbits] at hrun
  exact ⟨c', (Except.ok.inj hrun).symm, hsame, htest⟩

/-- What the entries leave. -/
lemma FormatRun.writes {args : HostDir} {s0 : DiskImage} (hr : FormatRun n args s0 s1 s)
    (h : FitsInto n args) (hmax : n ≤ 0x40000) :
    Writes n s0 (2 + nbitblock n) FilePtr.root 0 args s1 := by
  have hneeds := writeEntries_needs hmax hr.fresh.sound hr.fresh.dir h.onHost h.mild
    (.inr (by simpa using ⟨h.entries, h.narrow⟩))
  rw [hr.entries] at hneeds
  exact hneeds.post

/-- What holds of the disk that the program leaves. -/
structure Formatted (n : ℕ) (args : HostDir) (s : DiskImage) : Prop where
  image : IsImage n args s
  housed : Housed n s
  typed : ∃ cnt, Typed n s cnt ∧ Sized s cnt
  bits : ∀ b < n, Bitmap.test (bitsOf s.disk) b = decide (s.nextbno ≤ b ∧ b / 8 < n / 8)

/-- **The program**, if the names and the blocks have room. -/
theorem FitsInto.formatted {args : HostDir} (h : FitsInto n args) (hshort : args.Short) (hn : 4 ≤ n)
    (hmax : n ≤ 0x40000) : ∃ s, formatDisk n args = .ok s ∧ Formatted n args s := by
  obtain ⟨s, hrun, himage⟩ := h.image hn hmax
  obtain ⟨cnt, htyped, hsized⟩ :=
    formatDisk_typed hn hmax (h.onHost.hostNames hshort) hshort.clear hrun
  refine ⟨s, hrun, ?_⟩
  obtain ⟨s0, s1, hr⟩ := formatDisk_run hn hrun
  have hinit := hr.init
  have hfresh := hr.fresh
  have hwrites := hr.writes h hmax
  obtain ⟨ht0, hz0⟩ := hfresh.typed hinit
  obtain ⟨cnt1, h1⟩ := writeEntries_typed hmax ht0 hz0 .root hfresh.super.type
    (h.onHost.hostNames hshort) hshort.clear hr.entries
  have hh1 := writeEntries_housed hmax ht0 hz0 .root hfresh.super.type (hfresh.housed hinit)
    h.onHost hshort hr.entries
  -- the bitmap
  obtain ⟨c', rfl, hsame, htest⟩ := flushBitmap_cases hn h1.typed.sound.le hr.flush
  obtain ⟨hadds, hC⟩ := h1.typed.flushed hsame
  refine ⟨himage, ⟨?_, hh1.tight.keep h1.typed hh1.owned hadds hC⟩, ⟨cnt, htyped, hsized⟩,
    fun b hb => ?_⟩
  · apply hh1.owned.keep h1.typed hadds hC
    intro b hb
    change b < s1.nextbno at hb
    simp [hb]
  · -- the entries leave the bitmap alone
    have hword : bitsOf s1.disk (b / 32) = bitsOf s0.disk (b / 32) := by
      apply hwrites.root_same _ fun h1 => by omega
      rw [hfresh.next]
      unfold nbitblock
      omega
    have hold : Bitmap.test (bitsOf s1.disk) b = Bitmap.test (bitsOf s0.disk) b := by
      unfold Bitmap.test
      rw [hword]
    rw [htest, hold, initDisk_bit hn hinit hb, ← Bool.decide_and]
    exact decide_eq_decide.mpr and_comm

/-! ## The files of the image -/

lemma nameByte_eq_setWidth (s : DiskImage) (f : FilePtr) :
    s.nameByte f 0 = (s.disk f.block f.word).setWidth 8 := by
  rw [DiskImage.nameByte, ByteWords.get, Nat.add_zero, Nat.mul_div_cancel_left _ (by decide),
    Nat.mul_mod_right]
  simp

lemma named_iff_nameByte : Named s.disk f ↔ s.nameByte f 0 ≠ 0 := by
  rw [nameByte_eq_setWidth]
  rfl

section Files

variable {args : HostDir} (h : Typed n s cnt) (hz : Sized s cnt) (hh : Housed n s)

include h in
/-- A structure without a name in a block for entries is empty. -/
lemma Typed.blank_entry (hb : IsEntries s b) (hj : j < 16)
    (hname : s.nameByte (FilePtr.entry b j) 0 = 0) : ∀ w < 64, s.disk b (64 * j + w) = 0 := by
  obtain ⟨u, hu, hnames, hzero⟩ := h.named b hb
  have hle : u ≤ j := by
    by_contra hlt
    exact hnames j (not_le.mp hlt) hname
  intro w hw
  exact hzero _ (by omega) (by omega)

include h hz in
/-- The blocks of a directory are blocks for entries. -/
lemma Sized.isEntries_of_dirBlock (hf : InImage s f) (hb : DirBlock s.disk f b) : IsEntries s b := by
  obtain ⟨hd, i, hi, hold⟩ := hb
  rw [hz.sizeBlocksOf_eq hf hd] at hi
  have he := (h.file f hf).entries hd i hi
  unfold pointerAt at he
  rwa [hold.2.2] at he

include h hz in
/-- The structures in the blocks of directories are the files and empty ones. -/
lemma Sized.dirent_cases (hf : Dirent s.disk f) : InImage s f ∨
    ∃ b j, IsEntries s b ∧ f = FilePtr.entry b j ∧ ∀ w < 64, s.disk b (64 * j + w) = 0 := by
  induction hf with
  | root => exact .inl .root
  | @child d b j hd hb hj ih =>
    rcases ih with hin | ⟨v, l, -, rfl, hzero⟩
    · have he := hz.isEntries_of_dirBlock h hin hb
      by_cases hname : s.nameByte (FilePtr.entry b j) 0 = 0
      · exact .inr ⟨b, j, he, rfl, h.blank_entry he hj hname⟩
      · exact .inl (.entry he hj hname)
    · -- an empty structure is no directory
      obtain ⟨-, i, -, hold⟩ := hb
      refine absurd hold (not_holds_of_zero fun w _ hw => ?_)
      exact hzero w (by omega)

include h hz in
/-- What a structure in a directory holds, a file holds. -/
lemma Sized.inImage_of_holds (hf : Dirent s.disk f) (hb : Holds s.disk f p b) : InImage s f := by
  rcases hz.dirent_cases h hf with hin | ⟨v, l, -, rfl, hzero⟩
  · exact hin
  · refine absurd hb (not_holds_of_zero fun w _ hw => ?_)
    exact hzero w (by omega)

include h hz hh in
/-- **The files of the image are the files that the server finds.** -/
lemma Housed.live_iff : Live s.disk f ↔ InImage s f := by
  constructor
  · intro hf
    induction hf with
    | root => exact .root
    | child _ hb hj hname ih =>
      exact .entry (hz.isEntries_of_dirBlock h ih hb) hj (named_iff_nameByte.mp hname)
  · -- the directory of a file has its structure in a block before
    generalize hm : f.block = m
    induction m using Nat.strong_induction_on generalizing f with
    | _ m ih =>
      intro hf
      cases hf with
      | root => exact .root
      | @entry b j hb hj hname =>
        obtain rfl : b = m := hm
        have hge : 2 + nbitblock n ≤ b := by
          by_contra hlt
          rcases Nat.lt_or_ge b 2 with h2 | h2
          · obtain rfl | rfl : b = 0 ∨ b = 1 := by omega
            · exact absurd (h.boot.symm.trans hb.2) (by simp)
            · exact absurd (h.super.symm.trans hb.2) (by simp)
          · exact absurd ((h.bmap b ⟨h2, not_le.mp hlt⟩).symm.trans hb.2) (by simp)
        obtain ⟨⟨d, p⟩, hd⟩ := hh.owned.custody.held hge hb.1 (Set.notMem_empty b)
        have hlive := ih d.block (hh.owned.behind _ _ hd) rfl hd.1
        have hdir : wordAt s.disk d.type = ftypeDir ∧ ∃ i, p = .data i := by
          cases p with
          | indirect =>
            have hi := hh.owned.index d hd.1 hd.2.2.1
            have hval : (wordAt s.disk d.indirect).toNat = b := hd.2.2.2
            rw [hval] at hi
            exact absurd (hi.2.symm.trans hb.2) (by simp)
          | data i =>
            refine ⟨?_, i, rfl⟩
            by_contra hne
            exact absurd ((hh.owned.plain d i b hd hne).symm.trans hb.2) (by simp)
        obtain ⟨hdir, i, rfl⟩ := hdir
        have hi := hh.tight d hd.1 hdir i b hd.2
        exact .child hlive ⟨hdir, i, hi, hd.2⟩ hj (named_iff_nameByte.mpr hname)

include h hz in
/-- The directories have all their blocks. -/
lemma Sized.exists_holds (hf : InImage s f) (hd : wordAt s.disk f.type = ftypeDir)
    (hi : i < sizeBlocksOf s.disk f) : ∃ b, Holds s.disk f (.data i) b := by
  have hsize := (hz f hf).dir hd
  rw [hz.sizeBlocksOf_eq hf hd] at hi
  have he := (h.file f hf).entries hd i hi
  have hboot : ∀ {x : Word}, IsEntries s x.toNat → x ≠ 0 := by
    rintro x hx rfl
    exact absurd (h.boot.symm.trans hx.2) (by simp)
  refine ⟨(pointerAt s f i).toNat, ?_, hboot he, rfl⟩
  rcases Nat.lt_or_ge i 10 with h10 | h10
  · rw [Slot.field_of_lt h10]
    show 34 + i < 64
    omega
  · rw [Slot.field_of_le h10]
    have hindex := (h.file f hf).index (by omega)
    refine ⟨h10, ?_, fun h0 => ?_⟩
    · show i < 1024
      omega
    · rw [h0] at hindex
      exact absurd (h.boot.symm.trans hindex.2) (by simp)

include h hz in
lemma Sized.whole : Whole s.disk := by
  intro d hd ht i hi
  rcases hd with rfl | ⟨hd, hname⟩
  · exact hz.exists_holds h .root ht hi
  · rcases hz.dirent_cases h hd with hin | ⟨v, l, -, rfl, hzero⟩
    · exact hz.exists_holds h hin ht hi
    · have h0 : s.disk v (64 * l) = 0 := hzero 0 (by decide)
      refine absurd ?_ hname
      show (s.disk v (64 * l)).setWidth 8 = 0
      rw [h0]
      rfl

end Files

/-! ## Consistency -/

namespace Formatted

variable {args : HostDir}

lemma nblocksOf_eq (h : Formatted n args s) (hmax : n ≤ 0x40000) : nblocksOf s.disk = n := by
  rw [nblocksOf, h.image.super.nblocks, BitVec.toNat_ofNat, Nat.mod_eq_of_lt (by omega)]

lemma firstData_eq (h : Formatted n args s) (hn : 4 ≤ n) (hmax : n ≤ 0x40000) (hdvd : ¬ 32768 ∣ n) :
    firstData s.disk = 2 + nbitblock n := by
  rw [firstData, h.nblocksOf_eq hmax, ← (nbitblock_eq_iff hn).mpr hdvd]
  omega

/-- The blocks that are free in the bitmap. -/
lemma isFree_iff (h : Formatted n args s) (hmax : n ≤ 0x40000) :
    IsFree s.disk b ↔ s.nextbno ≤ b ∧ b / 8 < n / 8 := by
  rw [IsFree, h.nblocksOf_eq hmax]
  constructor
  · rintro ⟨hlt, htest⟩
    rw [h.bits b hlt] at htest
    exact of_decide_eq_true htest
  · rintro ⟨hge, hlt⟩
    have hb : b < n := by omega
    exact ⟨hb, by rw [h.bits b hb]; exact decide_eq_true ⟨hge, hlt⟩⟩

/-- **The image is consistent.** -/
lemma consistent (h : Formatted n args s) (hn : 4 ≤ n) (hmax : n ≤ 0x40000) (hdvd : ¬ 32768 ∣ n) :
    Consistent s.disk := by
  obtain ⟨cnt, htyped, hsized⟩ := h.typed
  have hfirst := h.firstData_eq hn hmax hdvd
  have hle := htyped.sound.le
  have hge := htyped.ge
  refine ⟨fun {f p b} hf hb => ?_, fun {f p g q b} hf hg hb hb' => ?_, fun b hb hfree => ?_⟩
  · have hin := hsized.inImage_of_holds htyped hf hb
    obtain ⟨hlo, hlt, -⟩ := h.housed.owned.custody.bound (x := (f, p)) ⟨hin, hb⟩
    refine ⟨by rw [hfirst]; exact hlo, by rw [h.nblocksOf_eq hmax]; omega, fun hfree => ?_⟩
    have := ((h.isFree_iff hmax).mp hfree).1
    omega
  · have hin := hsized.inImage_of_holds htyped hf hb
    have hin' := hsized.inImage_of_holds htyped hg hb'
    have hsame := h.housed.owned.custody.once (x := (f, p)) (y := (g, q)) ⟨hin, hb⟩ ⟨hin', hb'⟩
    exact Prod.ext_iff.mp hsame
  · have := ((h.isFree_iff hmax).mp hfree).1
    omega

/-- A block is free exactly if it is behind the bitmap, no file holds it, and the last byte of the
bitmap for it is full. -/
lemma isFree_iff_not_held (h : Formatted n args s) (hn : 4 ≤ n) (hmax : n ≤ 0x40000)
    (hdvd : ¬ 32768 ∣ n) : IsFree s.disk b ↔ firstData s.disk ≤ b ∧ b / 8 < n / 8 ∧
      ∀ f p, Live s.disk f → ¬ Holds s.disk f p b := by
  obtain ⟨cnt, htyped, hsized⟩ := h.typed
  have hge := htyped.ge
  rw [h.isFree_iff hmax, h.firstData_eq hn hmax hdvd]
  constructor
  · rintro ⟨hnext, hlt⟩
    refine ⟨by omega, hlt, fun f p hf hb => ?_⟩
    have hin := (h.housed.live_iff htyped hsized).mp hf
    have := (h.housed.owned.custody.bound (x := (f, p)) ⟨hin, hb⟩).2.1
    omega
  · rintro ⟨hlo, hlt, hno⟩
    refine ⟨?_, hlt⟩
    by_contra hnext
    obtain ⟨⟨f, p⟩, hin, hb⟩ :=
      h.housed.owned.custody.held hlo (not_le.mp hnext) (Set.notMem_empty b)
    exact hno f p ((h.housed.live_iff htyped hsized).mpr hin) hb

end Formatted

/-- **The image is consistent and wastes nothing.** If the arguments fit into a disk whose bitmap does
not fill its blocks exactly, the program ends with an image in which every block pointer of a file is to
a block of its own that is in use, the directories have all their blocks, and a block behind the bitmap
whose byte of the bitmap is full is free exactly if no file holds it. -/
theorem formatDisk_consistent (n : ℕ) (args : HostDir) (hn : 4 ≤ n) (hmax : n ≤ 0x40000)
    (hdvd : ¬ 32768 ∣ n) (hfits : FitsInto n args) (hshort : args.Short) :
    ∃ s, formatDisk n args = .ok s ∧ Consistent s.disk ∧ Whole s.disk ∧
      ∀ b, IsFree s.disk b ↔ firstData s.disk ≤ b ∧ b / 8 < n / 8 ∧
        ∀ f p, Live s.disk f → ¬ Holds s.disk f p b := by
  obtain ⟨s, hrun, h⟩ := hfits.formatted hshort hn hmax
  obtain ⟨cnt, htyped, hsized⟩ := h.typed
  exact ⟨s, hrun, h.consistent hn hmax hdvd, hsized.whole htyped,
    fun b => h.isFree_iff_not_held hn hmax hdvd⟩

/-- For a disk of the default size with a file, a link and a directory. -/
theorem formatDisk_consistent_nblock : ∃ s, formatDisk nblock smallTree = .ok s ∧
    Consistent s.disk ∧ Whole s.disk ∧
      ∀ b, IsFree s.disk b ↔ firstData s.disk ≤ b ∧ b / 8 < nblock / 8 ∧
        ∀ f p, Live s.disk f → ¬ Holds s.disk f p b :=
  formatDisk_consistent nblock smallTree (by decide) (by decide) (by decide)
    (smallTree_fits (by decide)) smallTree_short

end MosVolca
