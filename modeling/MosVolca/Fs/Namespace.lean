import MosVolca.Fs.DataBlocks
import MosVolca.Fs.Links
import Mathlib.Data.List.Find

/-!
# The names in the contents

What the contents of the blocks say about names: which file a directory has under a name, where a
list of names leads and what is in a link. Here nothing is allocated or read into the cache. The
walks of the server agree with this, and they change the contents only in ways that do not show.

## Main definitions

* `MosVolca.HasName`, `MosVolca.lookup`, `MosVolca.walkOf`, `MosVolca.target` — names, directories,
  lists of names and links.
* `MosVolca.Browses` — a change that does not show.

## Main results

* `MosVolca.Browses.lookup`, `MosVolca.Browses.walkOf`, `MosVolca.Browses.target` — it does not.
* `MosVolca.CacheInv.dirLookup_lookup`, `MosVolca.CacheInv.walkElems_walkOf` — the walks of the
  server.
-/

namespace MosVolca

variable {c c' c1 : Blocks} {s s' s1 : BlockCache} {f g d dir : FilePtr} {b i k n bno : ℕ}
  {name path : List Char8} {elems : List (List Char8)} {r : Word}

/-- `f->f_name[k]`. -/
def nameAt (c : Blocks) (f : FilePtr) (k : ℕ) : Char8 :=
  (c f.block (f.word + k / 4) >>> (8 * (k % 4))).setWidth 8

/-- The name of the structure. -/
def HasName (c : Blocks) (f : FilePtr) (name : List Char8) : Prop :=
  ∀ k < name.length + 1, nameAt c f k = name.getD k 0

instance (c : Blocks) (f : FilePtr) (name : List Char8) : Decidable (HasName c f name) :=
  inferInstanceAs (Decidable (∀ k < _, _))

instance (c : Blocks) (f : FilePtr) (x : Field) : Decidable (HasField c f x) :=
  match x with
  | .head k => inferInstanceAs (Decidable (k < 64))
  | .far i => inferInstanceAs (Decidable (ndirect ≤ i ∧ i < nindirect ∧ wordAt c f.indirect ≠ 0))

/-- The block `i` of a file, if it has one. -/
def blockOf (c : Blocks) (f : FilePtr) (i : ℕ) : Option ℕ :=
  let x := (Slot.data i).field
  if HasField c f x ∧ wordAt c (placeOf c f x) ≠ 0 then some (wordAt c (placeOf c f x)).toNat
  else none

/-- The first structure of a block with the name. -/
def findEntry (c : Blocks) (b : ℕ) (name : List Char8) : Option ℕ :=
  (List.range' 0 file2blk).find? fun j => decide (HasName c (FilePtr.entry b j) name)

/-- The first file with the name in `n` blocks of a directory from block `i` on. -/
def lookupFrom (c : Blocks) (dir : FilePtr) (name : List Char8) : ℕ → ℕ → Option FilePtr
  | 0, _ => none
  | n + 1, i =>
    match (blockOf c dir i).bind fun b => (findEntry c b name).map (FilePtr.entry b) with
    | some f => some f
    | none => lookupFrom c dir name n (i + 1)

/-- The file with the name in a directory. -/
def lookup (c : Blocks) (dir : FilePtr) (name : List Char8) : Option FilePtr :=
  lookupFrom c dir name (sizeBlocksOf c dir) 0

/-- What the walk along the names leaves behind, from `f` in `dir`. -/
def walkOf (c : Blocks) (dir : Option FilePtr) (f : FilePtr) : List (List Char8) → Walk
  | [] => ⟨0, dir, some f, []⟩
  | name :: rest =>
    if name.length ≥ maxnamelen then ⟨-eBadPath, none, none, []⟩
    else if wordAt c f.type ≠ ftypeDir then ⟨-eNotFound, none, none, []⟩
    else
      match lookup c f name with
      | some g => walkOf c (some f) g rest
      | none => if rest = [] then ⟨-eNotFound, some f, none, name⟩ else ⟨-eNotFound, none, none, []⟩

/-- The string at byte `k` of a block, with at most `n` bytes. -/
def textFrom (c : Blocks) (b : ℕ) : ℕ → ℕ → Option (List Char8)
  | 0, _ => none
  | n + 1, k =>
    let x : Char8 := (c b (k / 4) >>> (8 * (k % 4))).setWidth 8
    if x = 0 then some [] else (textFrom c b n (k + 1)).map (x :: ·)

/-- The string in a link. -/
def target (c : Blocks) (f : FilePtr) : Option (List Char8) :=
  if wordAt c f.type = ftypeLnk then textFrom c (wordAt c (f.direct 0)).toNat 4096 0 else none

/-- **A change that does not show.** Names, types, sizes and blocks stay; a directory may get a
block where it had none, without any name or directory; and the files that are no directories keep their
contents. -/
structure Browses (c c' : Blocks) : Prop where
  dirent : ∀ g, Dirent c g → Dirent c' g
  head : ∀ g, Dirent c g → ∀ k < 34, wordAt c' ⟨g.block, g.word + k⟩ = wordAt c ⟨g.block, g.word + k⟩
  kept : ∀ g i b, Dirent c g → Holds c g (.data i) b → Holds c' g (.data i) b
  new : ∀ g i b, Dirent c g → Holds c' g (.data i) b → Holds c g (.data i) b ∨
    wordAt c g.type = ftypeDir ∧ i < sizeBlocksOf c g ∧
      ∀ j < file2blk, ¬ Named c' (FilePtr.entry b j) ∧ wordAt c' (FilePtr.entry b j).type ≠ ftypeDir
  data : ∀ g i b, Dirent c g → wordAt c g.type ≠ ftypeDir → Holds c g (.data i) b →
    ∀ k, c' b k = c b k

/-! ## Names -/

/-- `strcmp` with the name of a file. -/
lemma nameIs_iff (hm : s.mapped f.block = true) : s.nameIs f name = true ↔
    HasName s.content f name := by
  unfold BlockCache.nameIs HasName
  have hbyte : ∀ k, s.nameByte f k = nameAt s.content f k := by
    intro k
    rw [nameAt, content_of_mapped hm]
    rfl
  rw [List.all_eq_true]
  constructor
  · intro h k hk
    have := h k (List.mem_range'.mpr ⟨k, hk, by omega⟩)
    rwa [beq_iff_eq, hbyte] at this
  · intro h k hk
    obtain ⟨i, hi, rfl⟩ := List.mem_range'.mp hk
    rw [beq_iff_eq, hbyte]
    exact h _ (by omega)

lemma findName_eq (hm : s.mapped b = true) : findName s b name = findEntry s.content b name := by
  unfold findName findEntry
  congr 1
  funext j
  have h : s.nameIs (FilePtr.entry b j) name = true ↔ HasName s.content (FilePtr.entry b j) name :=
    nameIs_iff hm
  cases hb : s.nameIs (FilePtr.entry b j) name with
  | true => exact (decide_eq_true (h.mp hb)).symm
  | false => exact (decide_eq_false fun hn => by rw [h.mpr hn] at hb; cases hb).symm

/-- A structure with a name has a first byte. -/
lemma HasName.named (h : HasName c f name) (hname : IsName name) : Named c f := by
  have h0 := h 0 (by omega)
  intro hz
  have hbyte : nameAt c f 0 = (c f.block f.word).setWidth 8 := by simp [nameAt]
  rw [hbyte, hz] at h0
  exact hname.head h0.symm

/-- A structure of zeros has no name. -/
lemma Blank.not_named {j : ℕ} (h : Blank c b) (hj : j < file2blk) :
    ¬ Named c (FilePtr.entry b j) := by
  have h0 := h.word_head hj (by decide : 0 < 64)
  unfold Named
  rw [show c (FilePtr.entry b j).block (FilePtr.entry b j).word = 0 from h0]
  exact fun hn => hn rfl

/-- The block at an index is the one that the file holds there. -/
lemma blockOf_eq_some : blockOf c f i = some b ↔ Holds c f (.data i) b := by
  unfold blockOf Holds
  simp only
  split_ifs with h
  · rw [Option.some_inj]
    exact ⟨fun hb => ⟨h.1, h.2, hb⟩, fun hb => hb.2.2⟩
  · exact iff_of_false (by simp) fun hb => h ⟨hb.1, hb.2.1⟩

lemma blockOf_eq_none : blockOf c f i = none ↔ ∀ b, ¬ Holds c f (.data i) b := by
  rw [Option.eq_none_iff_forall_ne_some]
  simp only [ne_eq, blockOf_eq_some]

/-! ## Changes that do not show -/

namespace Browses

lemma type (h : Browses c c') (hg : Dirent c g) : wordAt c' g.type = wordAt c g.type :=
  h.head g hg 33 (by decide)

lemma size (h : Browses c c') (hg : Dirent c g) : sizeBlocksOf c' g = sizeBlocksOf c g := by
  rw [sizeBlocksOf, sizeBlocksOf, show wordAt c' g.size = wordAt c g.size from
    h.head g hg 32 (by decide)]

lemma refl (c : Blocks) : Browses c c where
  dirent := fun _ => id
  head := fun _ _ _ _ => rfl
  kept := fun _ _ _ _ => id
  new := fun _ _ _ _ => .inl
  data := fun _ _ _ _ _ _ _ => rfl

lemma nameAt (h : Browses c c') (hg : Dirent c g) (hk : k < 128) :
    MosVolca.nameAt c' g k = MosVolca.nameAt c g k :=
  congrArg (fun w : Word => (w >>> (8 * (k % 4))).setWidth 8) (h.head g hg (k / 4) (by omega))

lemma named_iff (h : Browses c c') (hg : Dirent c g) : Named c' g ↔ Named c g := by
  unfold Named
  rw [show c' g.block g.word = c g.block g.word from h.head g hg 0 (by decide)]

lemma trans (h : Browses c c1) (h' : Browses c1 c') : Browses c c' where
  dirent := fun g hg => h'.dirent g (h.dirent g hg)
  head := fun g hg k hk => (h'.head g (h.dirent g hg) k hk).trans (h.head g hg k hk)
  kept := fun g i b hg hold => h'.kept g i b (h.dirent g hg) (h.kept g i b hg hold)
  new := by
    intro g i b hg hold
    rcases h'.new g i b (h.dirent g hg) hold with hold1 | ⟨ht, hi, hno⟩
    · rcases h.new g i b hg hold1 with hold | ⟨ht, hi, hno⟩
      · exact .inl hold
      · refine .inr ⟨ht, hi, fun j hj => ?_⟩
        have hentry : Dirent c1 (FilePtr.entry b j) :=
          .child (h.dirent g hg) ⟨(h.type hg).trans ht, i, (h.size hg).symm ▸ hi, hold1⟩ hj
        obtain ⟨hname, htype⟩ := hno j hj
        rw [h'.named_iff hentry, h'.type hentry]
        exact ⟨hname, htype⟩
    · exact .inr ⟨(h.type hg).symm.trans ht, h.size hg ▸ hi, hno⟩
  data := fun g i b hg ht hold k =>
    (h'.data g i b (h.dirent g hg) (by rwa [h.type hg]) (h.kept g i b hg hold) k).trans
      (h.data g i b hg ht hold k)

lemma hasName_iff (h : Browses c c') (hg : Dirent c g) (hlen : name.length < maxnamelen) :
    HasName c' g name ↔ HasName c g name := by
  have hlen : name.length < 128 := hlen
  unfold HasName
  refine forall₂_congr fun k hk => ?_
  rw [h.nameAt hg (by omega)]

/-- A directory has the same files under the same names. -/
lemma lookupFrom (h : Browses c c') (hd : Dirent c dir) (ht : wordAt c dir.type = ftypeDir)
    (hname : IsName name) (hlen : name.length < maxnamelen) (hn : i + n ≤ sizeBlocksOf c dir) :
    MosVolca.lookupFrom c' dir name n i = MosVolca.lookupFrom c dir name n i := by
  induction n generalizing i with
  | zero => rfl
  | succ n ih =>
    have hblock : ((blockOf c' dir i).bind fun b => (findEntry c' b name).map (FilePtr.entry b)) =
        (blockOf c dir i).bind fun b => (findEntry c b name).map (FilePtr.entry b) := by
      cases hb : blockOf c dir i with
      | some b =>
        have hold := blockOf_eq_some.mp hb
        rw [blockOf_eq_some.mpr (h.kept dir i b hd hold)]
        have hfind : findEntry c' b name = findEntry c b name := by
          unfold findEntry
          refine List.find?_congr fun j hj => ?_
          obtain ⟨k, hk, rfl⟩ := List.mem_range'.mp hj
          have hentry : Dirent c (FilePtr.entry b (0 + 1 * k)) :=
            .child hd ⟨ht, i, by omega, hold⟩ (by omega)
          exact decide_eq_decide.mpr (h.hasName_iff hentry hlen)
        simp only [Option.bind_some, hfind]
      | none =>
        rw [Option.bind_none]
        cases hb' : blockOf c' dir i with
        | none => rfl
        | some b =>
          rcases h.new dir i b hd (blockOf_eq_some.mp hb') with hold | ⟨-, -, hno⟩
          · exact absurd hold (blockOf_eq_none.mp hb b)
          · -- the new block has no names
            have hfind : findEntry c' b name = none := by
              refine List.find?_eq_none.mpr fun j hj hc => ?_
              obtain ⟨k, hk, rfl⟩ := List.mem_range'.mp hj
              exact (hno _ (by omega)).1 ((of_decide_eq_true hc).named hname)
            simp only [Option.bind_some, hfind, Option.map_none]
    rw [MosVolca.lookupFrom, MosVolca.lookupFrom, hblock, ih (by omega)]

lemma lookup (h : Browses c c') (hd : Dirent c dir) (ht : wordAt c dir.type = ftypeDir)
    (hname : IsName name) (hlen : name.length < maxnamelen) :
    MosVolca.lookup c' dir name = MosVolca.lookup c dir name := by
  rw [MosVolca.lookup, h.size hd, h.lookupFrom hd ht hname hlen (by omega), MosVolca.lookup]

end Browses

/-! ## Lists of names -/

/-- What is found under a name is an entry, with the name. -/
lemma lookupFrom_dirent (ht : wordAt c dir.type = ftypeDir) (hn : i + n ≤ sizeBlocksOf c dir)
    (h : lookupFrom c dir name n i = some f) :
    (∃ b j, DirBlock c dir b ∧ j < file2blk ∧ f = FilePtr.entry b j) ∧ HasName c f name := by
  induction n generalizing i with
  | zero => cases h
  | succ n ih =>
    rw [lookupFrom] at h
    split at h
    · rename_i g hg
      cases h
      obtain ⟨b, hb, hfind⟩ := Option.bind_eq_some_iff.mp hg
      obtain ⟨j, hj, rfl⟩ := Option.map_eq_some_iff.mp hfind
      have hlt := List.mem_of_find?_eq_some hj
      have hname := List.find?_some hj
      obtain ⟨k, hk, rfl⟩ := List.mem_range'.mp hlt
      exact ⟨⟨b, _, ⟨ht, i, by omega, blockOf_eq_some.mp hb⟩, by omega, rfl⟩,
        of_decide_eq_true hname⟩
    · exact ih (by omega) h

/-- What is found in a directory is a file. -/
lemma lookup_isFile (hd : Dirent c dir) (ht : wordAt c dir.type = ftypeDir) (hname : IsName name)
    (h : lookup c dir name = some f) : IsFile c f := by
  obtain ⟨⟨b, j, hb, hj, rfl⟩, hf⟩ := lookupFrom_dirent ht (by omega) h
  exact .inr ⟨.child hd hb hj, hf.named hname⟩

/-- Names lead to a file. -/
lemma walkOf_isFile {d : Option FilePtr} (hf : IsFile c f) (hnames : ∀ e ∈ elems, IsName e)
    (h : (walkOf c d f elems).file = some g) : IsFile c g := by
  induction elems generalizing d f with
  | nil =>
    cases h
    exact hf
  | cons name rest ih =>
    rw [walkOf] at h
    by_cases hlen : name.length ≥ maxnamelen
    · rw [if_pos hlen] at h
      cases h
    · rw [if_neg hlen] at h
      by_cases ht : wordAt c f.type = ftypeDir
      · rw [if_neg (not_not_intro ht)] at h
        split at h
        · rename_i f1 hl
          exact ih (lookup_isFile hf.dirent ht (hnames name List.mem_cons_self) hl)
            (fun e he => hnames e (List.mem_cons_of_mem name he)) h
        · split at h <;> cases h
      · rw [if_pos ht] at h
        cases h

/-- The walk leads to the same file, and from the same directory. -/
lemma Browses.walkOf (h : Browses c c') {d : Option FilePtr} (hf : IsFile c f)
    (hnames : ∀ e ∈ elems, IsName e) :
    MosVolca.walkOf c' d f elems = MosVolca.walkOf c d f elems := by
  induction elems generalizing d f with
  | nil => rfl
  | cons name rest ih =>
    rw [MosVolca.walkOf, MosVolca.walkOf, h.type hf.dirent]
    by_cases hlen : name.length ≥ maxnamelen
    · rw [if_pos hlen, if_pos hlen]
    · rw [if_neg hlen, if_neg hlen]
      by_cases ht : wordAt c f.type = ftypeDir
      · have hname := hnames name List.mem_cons_self
        rw [if_neg (not_not_intro ht), if_neg (not_not_intro ht),
          h.lookup hf.dirent ht hname (Nat.lt_of_not_le hlen)]
        cases hl : MosVolca.lookup c f name with
        | none => rfl
        | some g =>
          exact ih (lookup_isFile hf.dirent ht hname hl)
            fun e he => hnames e (List.mem_cons_of_mem name he)
      · rw [if_pos ht, if_pos ht]

/-! ## Links -/

lemma textFrom_congr (h : ∀ k, c' b k = c b k) (n k : ℕ) : textFrom c' b n k = textFrom c b n k := by
  induction n generalizing k with
  | zero => rfl
  | succ n ih => rw [textFrom, textFrom, h, ih]

lemma stringFrom_eq (hm : s.mapped b = true) (n k : ℕ) :
    s.stringFrom b n k = textFrom s.content b n k := by
  induction n generalizing k with
  | zero => rfl
  | succ n ih => rw [BlockCache.stringFrom, textFrom, content_of_mapped hm, ih]

/-- The target of a link is a string. -/
lemma target_no_zero {l : List Char8} (h : target c f = some l) : (0 : Char8) ∉ l := by
  have htext : ∀ n k l, textFrom c (wordAt c (f.direct 0)).toNat n k = some l → (0 : Char8) ∉ l := by
    intro n
    induction n with
    | zero =>
      intro k l hl
      cases hl
    | succ n ih =>
      intro k l hl
      simp only [textFrom] at hl
      split_ifs at hl with h0
      · cases hl
        exact List.not_mem_nil
      · obtain ⟨l', hl', rfl⟩ := Option.map_eq_some_iff.mp hl
        intro hmem
        rcases List.mem_cons.mp hmem with heq | hmem
        · exact h0 heq.symm
        · exact ih _ l' hl' hmem
  unfold target at h
  split_ifs at h
  exact htext 4096 0 l h

/-- The string in a link stays. -/
lemma Browses.target (h : Browses c c') (hf : Dirent c f)
    (hblock : wordAt c f.type = ftypeLnk → wordAt c (f.direct 0) ≠ 0) :
    MosVolca.target c' f = MosVolca.target c f := by
  unfold MosVolca.target
  rw [h.type hf]
  by_cases ht : wordAt c f.type = ftypeLnk
  · have hnd : wordAt c f.type ≠ ftypeDir := by
      rw [ht]
      decide
    have hold : Holds c f (.data 0) (wordAt c (f.direct 0)).toNat :=
      ⟨(by decide : 34 < 64), hblock ht, rfl⟩
    have hw : wordAt c' (f.direct 0) = wordAt c (f.direct 0) :=
      BitVec.eq_of_toNat_eq (h.kept f 0 _ hf hold).2.2
    rw [if_pos ht, if_pos ht, hw]
    exact textFrom_congr (h.data f 0 _ hf hnd hold) 4096 0
  · rw [if_neg ht, if_neg ht]

/-! ## The walks of the server -/

lemma Loads.browses (h : Loads s s') : Browses s.content s'.content := by
  rw [h.content]
  exact .refl _

namespace CacheInv

/-- A block for a directory does not show. -/
lemma fileGetBlock_browses {x : Except Word ℕ} (hs : CacheInv s) (hf : Dirent s.content f)
    (hm : s.mapped f.block = true) (ht : wordAt s.content f.type = ftypeDir)
    (hi : bno < sizeBlocksOf s.content f) (h : MosVolca.fileGetBlock s f bno = .ok (x, s'))
    (hclean : MapClean s f bno) : Browses s.content s'.content := by
  obtain ⟨-, hgrow, -⟩ := hs.fileGetBlock hf hm h hclean
  have hadds := hs.fileGetBlock_addsBlock hf hm h hclean
  have hact := (hs.fileGetBlock_extends hf hm h hclean).toActsOn
  refine ⟨hgrow.dirent, fun g hg k hk => ?_, hadds.kept, fun g i b hg hold => ?_,
    fun g i b hg htg hold k => hact.data hs.consistent hf hg htg hold k⟩
  · by_cases h32 : k < 32
    · exact hact.field hs.consistent hf hg (x := .head k) (by omega : k < 64)
        (.inr fun hc => absurd hc.1 (by omega))
    · rcases (by omega : k = 32 ∨ k = 33) with rfl | rfl
      · exact hgrow.size g hg
      · exact hgrow.type g hg
  · rcases hadds.new g i b hg hold with hold | ⟨rfl, rfl, hblank⟩
    · exact .inl hold
    · refine .inr ⟨ht, hi, fun j hj => ⟨(hblank ht hi).not_named hj, ?_⟩⟩
      rw [show wordAt s'.content (FilePtr.entry b j).type = 0 from
        (hblank ht hi).word_head hj (by decide : 33 < 64)]
      decide

/-- `f_dir` of an entry of a directory does not show. -/
lemma storeDir_browses (hs : CacheInv s) (hf : Dirent s.content f) (hm : s.mapped f.block = true) :
    Browses s.content (s.store f.dir r).content := by
  have hfield : HasField s.content f (.head 45) := (by decide : 45 < 64)
  have hmeta : ¬ (Field.head 45).Meta := fun h => absurd h.2 (by decide)
  rw [content_store (p := f.dir) hm]
  have hag : ∀ g, Dirent s.content g → Agrees s.content (putWord s.content f.dir r) g :=
    fun g hg => hs.consistent.agrees_of_field hg hf hfield (.inr hmeta)
  refine ⟨fun g hg => (Consistent.entry_iff hag).mpr hg, fun g hg k hk => ?_,
    fun g i b hg hold => (hag g hg).holds_iff.mpr hold,
    fun g i b hg hold => .inl ((hag g hg).holds_iff.mp hold), fun g i b hg ht hold k => ?_⟩
  · refine wordAt_putWord_of_ne fun he => ?_
    have hx := (hs.consistent.place_inj hg hf (x := .head k) (by omega : k < 64) hfield he).2
    rw [Field.head.injEq] at hx
    omega
  · exact TwoLevel.write_of_ne_page (hs.consistent.data_ne_place hg ht hold hf hfield)

end CacheInv

/-- **The walks of the server** do not show. -/
theorem Scans.browses (h : Scans s s') (hs : CacheInv s) : Browses s.content s'.content := by
  induction h with
  | refl => exact .refl _
  | read _ hread ih => exact ih.trans (readBlock_loads hread).1.browses
  | block hw hd ht hi hget hclean ih =>
    exact ih.trans ((hw.inv hs).fileGetBlock_browses hd.dirent hd.mapped ht hi hget hclean)
  | dir hw hf ih => exact ih.trans ((hw.inv hs).storeDir_browses hf.dirent hf.mapped)

namespace CacheInv

/-- The loop of `dir_lookup`. -/
lemma dirLookupFrom_lookup {x : Except Word FilePtr} (hs : CacheInv s) (hd : Dirent s.content dir)
    (hm : s.mapped dir.block = true) (ht : wordAt s.content dir.type = ftypeDir)
    (hn : i + n ≤ sizeBlocksOf s.content dir) (hname : IsName name) (hlen : name.length < maxnamelen)
    (h : MosVolca.dirLookupFrom s dir name n i = .ok (x, s')) (hclean : LookupClean s dir name n i) :
    Browses s.content s'.content ∧
      (∀ f, x = .ok f → lookupFrom s.content dir name n i = some f) ∧
      (x = .error (-eNotFound) → lookupFrom s.content dir name n i = none) := by
  induction n generalizing s i with
  | zero =>
    cases h
    refine ⟨.refl _, fun f hf => ?_, fun _ => rfl⟩
    cases hf
  | succ n ih =>
    rw [MosVolca.dirLookupFrom] at h
    obtain ⟨⟨y, s1⟩, hget, h1⟩ := bind_eq_ok.mp h
    have hbr := hs.fileGetBlock_browses hd hm ht (by omega) hget hclean.1
    obtain ⟨hs1, hg, hblk⟩ := hs.fileGetBlock hd hm hget hclean.1
    have hd1 := hg.dirent dir hd
    have ht1 := (hg.type dir hd).trans ht
    cases y with
    | error e =>
      cases h1
      refine ⟨hbr, fun f hf => ?_, fun he => ?_⟩
      · cases hf
      · cases he
        rcases fileGetBlock_error hget with h0 | h0 | h0
        · exact absurd h0 (by decide)
        · exact absurd h0 (by decide)
        · exact absurd h0 (by decide)
    | ok b =>
      obtain ⟨hold, hmb⟩ := hblk b rfl
      have hsame := hbr.lookupFrom hd ht hname hlen hn
      rw [← hsame, lookupFrom, blockOf_eq_some.mpr hold, Option.bind_some, ← findName_eq hmb]
      simp only at h1
      split at h1
      · rename_i j hfind
        have hj := lt_of_find_entry hfind
        cases h1
        have hentry := dirent_entry hd1 ht1 (by rw [hbr.size hd]; omega) hold hj
        rw [hfind, Option.map_some]
        refine ⟨hbr.trans (hs1.storeDir_browses hentry hmb), fun f hf => ?_, fun he => ?_⟩
        · cases hf
          rfl
        · cases he
      · rename_i hfind
        obtain ⟨hbr', hok, hmissing⟩ := ih hs1 hd1 (hg.mapped _ hm) ht1
          (by rw [hbr.size hd]; omega) h1 (hclean.2 b s1 hget hfind)
        rw [hfind, Option.map_none]
        exact ⟨hbr.trans hbr', hok, hmissing⟩

/-- **`dir_lookup`** finds what the contents say. -/
theorem dirLookup_lookup {x : Except Word FilePtr} (hs : CacheInv s) (hd : Dirent s.content dir)
    (hm : s.mapped dir.block = true) (ht : wordAt s.content dir.type = ftypeDir)
    (hname : IsName name) (hlen : name.length < maxnamelen)
    (h : MosVolca.dirLookup s dir name = .ok (x, s'))
    (hclean : LookupClean s dir name (s.sizeBlocks dir) 0) :
    Browses s.content s'.content ∧ (∀ f, x = .ok f → lookup s.content dir name = some f) ∧
      (x = .error (-eNotFound) → lookup s.content dir name = none) := by
  unfold MosVolca.dirLookup at h
  rw [sizeBlocks_eq hm] at h hclean
  exact hs.dirLookupFrom_lookup hd hm ht (by omega) hname hlen h hclean

/-- **The loop of the walks** leaves behind what the contents say, unless a block is missing and
cannot be allocated. -/
theorem walkElems_walkOf {d : Option FilePtr} {x : Walk} (hs : CacheInv s) (hf : InCache s f)
    (hfile : IsFile s.content f) (hnames : ∀ e ∈ elems, IsName e)
    (h : MosVolca.walkElems s d f elems = .ok (x, s')) (hclean : ElemsClean s f elems) :
    Browses s.content s'.content ∧ (x = walkOf s.content d f elems ∨
      ∃ r, r ≠ 0 ∧ r ≠ -eNotFound ∧ x = ⟨r, none, none, []⟩) := by
  induction elems generalizing s d f with
  | nil =>
    cases h
    exact ⟨.refl _, .inl rfl⟩
  | cons name rest ih =>
    rw [MosVolca.walkElems, load_eq (p := f.type) hf.mapped] at h
    rw [walkOf]
    by_cases hlen : name.length ≥ maxnamelen
    · rw [if_pos hlen] at h ⊢
      cases h
      exact ⟨.refl _, .inl rfl⟩
    rw [if_neg hlen] at h ⊢
    by_cases ht : wordAt s.content f.type = ftypeDir
    · rw [if_neg (not_not_intro ht)] at h ⊢
      obtain ⟨hlook, hrest⟩ := hclean (Nat.lt_of_not_le hlen)
        (by rw [load_eq (p := f.type) hf.mapped, ht])
      obtain ⟨⟨y, s1⟩, hdl, h1⟩ := bind_eq_ok.mp h
      have hname := hnames name List.mem_cons_self
      have hlt := Nat.lt_of_not_le hlen
      obtain ⟨hs1, -, hfound, -⟩ := hs.dirLookup hf.dirent hf.mapped ht hdl hlook
      obtain ⟨hbr, hok, hmissing⟩ := hs.dirLookup_lookup hf.dirent hf.mapped ht hname hlt hdl hlook
      cases y with
      | ok g =>
        obtain ⟨hgc, hnamed⟩ := hfound g rfl
        have hrestnames : ∀ e ∈ rest, IsName e :=
          fun e he => hnames e (List.mem_cons_of_mem name he)
        obtain ⟨hbr', hres⟩ := ih hs1 hgc (.inr ⟨hgc.dirent, hnamed hname⟩) hrestnames h1 (hrest g s1 hdl)
        refine ⟨hbr.trans hbr', ?_⟩
        rw [hok g rfl]
        rwa [hbr.walkOf (lookup_isFile hf.dirent ht hname (hok g rfl)) hrestnames] at hres
      | error e =>
        simp only at h1
        by_cases he : e = -eNotFound
        · subst he
          rw [hmissing rfl]
          by_cases hlast : rest = []
          · rw [if_pos ⟨rfl, hlast⟩] at h1
            cases h1
            exact ⟨hbr, .inl (if_pos hlast).symm⟩
          · rw [if_neg fun hc => hlast hc.2] at h1
            cases h1
            exact ⟨hbr, .inl (if_neg hlast).symm⟩
        · rw [if_neg fun hc => he hc.1] at h1
          cases h1
          have he0 : e ≠ 0 := by
            rcases dirLookupFrom_cases hdl with ⟨f1, t, hx, -⟩ | ⟨r, hx, hne⟩
            · cases hx
            · cases hx
              exact hne
          exact ⟨hbr, .inr ⟨e, he0, he, rfl⟩⟩
    · rw [if_pos ht] at h ⊢
      cases h
      exact ⟨.refl _, .inl rfl⟩

end CacheInv

end MosVolca
