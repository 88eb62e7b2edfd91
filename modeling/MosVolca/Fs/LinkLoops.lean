import MosVolca.Fs.Walks
import MosVolca.Library.Chains
import Mathlib.Data.Finite.Prod
import Mathlib.Data.Set.Finite.Lattice

/-!
# Links that go in a circle

`walk_path` calls itself for what is in a link, and counts nothing. In an image that is in order it
returns exactly if the links do not go in a circle, whatever the tree and the links are.

## Main definitions

* `MosVolca.Intact` — an image that is in order.
* `MosVolca.linkedPath`, `MosVolca.LinksLoop` — the path in the link that a path leads to.

## Main results

* `MosVolca.walkPath_returns_iff` — when `walk_path` returns.
* `MosVolca.walkPath_linkLoop` — a link to itself.
-/

namespace MosVolca

variable {c c' : Blocks} {s s' s1 : BlockCache} {f g dir : FilePtr} {b i n bno : ℕ}
  {name path path' : List Char8} {elems : List (List Char8)} {w : Walk}

/-! ## Images that are in order -/

/-- The image is no larger than the cache, its directories have all their blocks, and its links have
a block with a string in it. -/
structure Intact (c : Blocks) : Prop where
  small : nblocksOf c ≤ 0x40000
  whole : Whole c
  link : ∀ f, IsFile c f → wordAt c f.type = ftypeLnk →
    wordAt c (f.direct 0) ≠ 0 ∧ ∃ t, target c f = some t

/-- The path in the link that a path leads to. -/
def linkedPath (c : Blocks) (path : List Char8) : Option (List Char8) :=
  (walkOf c none FilePtr.root (pathElems path)).file.bind (target c)

/-- The links that a path leads to come to a path that leads back to itself. -/
def LinksLoop (c : Blocks) (path : List Char8) : Prop := Chain.Loops (linkedPath c) path

/-- The kernel has a page for each of the allocations to come. -/
def HasPages (s : BlockCache) : Prop := ∀ n, s.grants n = true

lemma target_type {t : List Char8} (h : target c f = some t) : wordAt c f.type = ftypeLnk := by
  unfold target at h
  split_ifs at h with ht
  exact ht

/-- A visit leaves the image intact. -/
lemma Intact.of_visits (h : Intact s.content) (hv : Visits s s') : Intact s'.content where
  small := by
    rw [hv.nblocks]
    exact h.small
  whole := hv.whole h.whole
  link := by
    intro f hf ht
    have hf := hv.isFile_iff.mp hf
    rw [hv.browses.type hf.dirent] at ht
    obtain ⟨hne, t, ht'⟩ := h.link f hf ht
    have hold : Holds s.content f (.data 0) (wordAt s.content (f.direct 0)).toNat :=
      ⟨(by decide : 34 < 64), hne, rfl⟩
    have hne' : wordAt s'.content (f.direct 0) ≠ 0 := (hv.browses.kept f 0 _ hf.dirent hold).2.1
    have ht1 := hv.browses.target hf.dirent fun _ => hne
    exact ⟨hne', t, ht1.trans ht'⟩

/-- A path leads to the same link after other walks. -/
lemma Intact.linkedPath_eq (h : Intact s.content) (hv : Visits s s') (hp : (0 : Char8) ∉ path) :
    linkedPath s'.content path = linkedPath s.content path := by
  have hnames := isName_pathElems hp
  unfold linkedPath
  rw [hv.browses.walkOf (.inl rfl) hnames]
  cases hfile : (walkOf s.content none FilePtr.root (pathElems path)).file with
  | none => rw [Option.bind_none, Option.bind_none]
  | some f =>
    have hf := walkOf_isFile (.inl rfl) hnames hfile
    rw [Option.bind_some, Option.bind_some]
    exact hv.browses.target hf.dirent fun ht => (h.link f hf ht).1

/-! ## Finitely many links -/

/-- There are finitely many entries. -/
lemma Consistent.finite_dirent (h : Consistent c) : {f | Dirent c f}.Finite := by
  have hentries := (Set.finite_lt_nat (nblocksOf c)).image2 FilePtr.entry (Set.finite_lt_nat file2blk)
  refine (hentries.insert FilePtr.root).subset fun f hf => ?_
  rcases h.block_entry hf with rfl | ⟨hu, j, hj, he⟩
  · exact Set.mem_insert _ _
  · exact Set.mem_insert_of_mem _ ⟨f.block, hu.lt, j, hj, he.symm⟩

/-- A path comes to finitely many paths. -/
lemma Consistent.linksLoop_iff (h : Consistent c) (hp : (0 : Char8) ∉ path) :
    Chain.Ends (linkedPath c) path ↔ ¬ LinksLoop c path := by
  refine Chain.ends_iff (S := insert path {t | ∃ f, Dirent c f ∧ target c f = some t}) ?_ ?_
  · have himage : {t | ∃ f, Dirent c f ∧ target c f = some t} ⊆
        (fun f => (target c f).getD []) '' {f | Dirent c f} := by
      rintro t ⟨f, hf, ht⟩
      exact ⟨f, hf, by simp only [ht, Option.getD_some]⟩
    exact ((h.finite_dirent.image _).subset himage).insert path
  · intro t ht
    rcases ht.cases_tail with rfl | ⟨q, hq, hqt⟩
    · exact Set.mem_insert _ _
    · have hzero : (0 : Char8) ∉ q := by
        rcases hq.cases_tail with rfl | ⟨q', -, hq'⟩
        · exact hp
        · obtain ⟨f, -, hf⟩ := Option.bind_eq_some_iff.mp hq'
          exact target_no_zero hf
      obtain ⟨f, hfile, hf⟩ := Option.bind_eq_some_iff.mp hqt
      have hisfile := walkOf_isFile (.inl rfl) (isName_pathElems hzero) hfile
      exact Set.mem_insert_of_mem _ ⟨f, hisfile.dirent, hf⟩

/-! ## Walks that return -/

namespace CacheInv

/-- A block in use can be read. -/
lemma readBlock_granted (hs : CacheInv s) (hg : HasPages s) (hn : nblocksOf s.content ≤ 0x40000)
    (hu : Usable s.content b) : ∃ isnew s', MosVolca.readBlock s b = .ok (isnew, s') ∧ HasPages s' := by
  have hlt : b < s.nblocks := hs.nblocks ▸ hu.lt
  have hfree : blockIsFree s b = false := by
    by_contra hc
    have hc : blockIsFree s b = true := by simpa using hc
    unfold blockIsFree at hc
    simp only [Bool.and_eq_true, decide_eq_true_eq] at hc
    refine hu.used ⟨hu.lt, ?_⟩
    rw [hs.bits (bits_block hu.lt)] at hc
    by_contra hno
    exact hc.2 ((Bitmap.and_mask_eq_zero_iff (by decide)).mpr (by simpa using hno))
  have hdisk : diskaddr b = .ok b := if_neg (Nat.not_le.mpr (hu.lt.trans_le hn))
  unfold MosVolca.readBlock
  rw [if_neg fun hc => absurd hc.2 (Nat.not_le.mpr hlt),
    if_neg fun hc => absurd (hfree.symm.trans hc.2) Bool.false_ne_true, hdisk]
  by_cases hm : s.mapped b = true
  · exact ⟨false, s, if_pos hm, hg⟩
  · have hpage : allocPage s b = (0, { ({ s with grants := fun n => s.grants (n + 1) }).setBlock b
        fun _ => 0 with
        mapped := Function.update s.mapped b true, dirty := Function.update s.dirty b false }) :=
      if_pos (hg 0)
    have htouch : MosVolca.touchBlock (allocPage s b).2 b = .ok (allocPage s b).2 := by
      refine if_pos ?_
      rw [hpage]
      exact Function.update_self _ _ _
    refine ⟨true, ideRead (allocPage s b).2 b, ?_, fun n => ?_⟩
    · show (if s.mapped b = true then _ else _) = _
      rw [if_neg hm]
      show (MosVolca.touchBlock (allocPage s b).2 b >>= _) = _
      rw [htouch]
      rfl
    · rw [hpage]
      exact hg (n + 1)

/-- `file_map_block` of a block that is there returns it. -/
lemma fileMapBlock_granted (hs : CacheInv s) (hg : HasPages s) (hn : nblocksOf s.content ≤ 0x40000)
    (hf : Dirent s.content f) (hm : s.mapped f.block = true)
    (hold : Holds s.content f (.data bno) b) (alloc : Bool) :
    ∃ s', MosVolca.fileMapBlock s f bno alloc = .ok (.ok b, s') ∧ HasPages s' ∧ Loads s s' := by
  have hwalk : ∃ x s1, MosVolca.fileBlockWalk s f bno alloc = .ok (x, s1) ∧ HasPages s1 := by
    unfold MosVolca.fileBlockWalk
    by_cases hd : bno < ndirect
    · exact ⟨_, s, if_pos hd, hg⟩
    · rw [if_neg hd]
      have hfield := hold.hasField
      rw [show (Slot.data bno).field = .far bno from if_neg hd] at hfield
      have hind : s.load f.indirect ≠ 0 := by
        rw [load_eq (p := f.indirect) hm]
        exact hfield.2.2
      have hneed : MosVolca.needIndirect s f alloc = .ok (.ok (), s) := if_neg hind
      rw [if_pos hfield.2.1, hneed]
      have hu := hs.consistent.usable hf (holds_indirect hfield.2.2)
      rw [← load_eq (p := f.indirect) hm] at hu
      obtain ⟨isnew, s1, hread, hg1⟩ := hs.readBlock_granted hg hn hu
      refine ⟨.ok ⟨(s.load f.indirect).toNat, bno⟩, s1, ?_, hg1⟩
      show (MosVolca.readBlock s (s.load f.indirect).toNat >>= _) = _
      rw [hread]
      rfl
  obtain ⟨x, s1, hwalk, hg1⟩ := hwalk
  obtain ⟨ptr, rfl, hload, -, hne, hb⟩ := fileBlockWalk_held hm hold hwalk
  refine ⟨s1, ?_, hg1, hload⟩
  unfold MosVolca.fileMapBlock
  rw [hwalk]
  show (if s1.load ptr = 0 then _ else _) = _
  rw [if_neg hne, hb]
  rfl

/-- `file_get_block` of a block that is there returns. -/
lemma fileGetBlock_granted (hs : CacheInv s) (hg : HasPages s) (hn : nblocksOf s.content ≤ 0x40000)
    (hf : Dirent s.content f) (hm : s.mapped f.block = true)
    (hold : Holds s.content f (.data bno) b) :
    ∃ s', MosVolca.fileGetBlock s f bno = .ok (.ok b, s') ∧ HasPages s' := by
  obtain ⟨s1, hmap, hg1, hload⟩ := hs.fileMapBlock_granted hg hn hf hm hold true
  have hu : Usable s1.content b := hload.content ▸ hs.consistent.usable hf hold
  obtain ⟨isnew, s2, hread, hg2⟩ :=
    (hload.inv hs).readBlock_granted hg1 (hload.content ▸ hn) hu
  refine ⟨s2, ?_, hg2⟩
  unfold MosVolca.fileGetBlock
  rw [hmap]
  show (MosVolca.readBlock s1 b >>= _) = _
  rw [hread]
  rfl

/-- The loop of `dir_lookup` returns. -/
lemma dirLookupFrom_granted (hs : CacheInv s) (hg : HasPages s)
    (hn : nblocksOf s.content ≤ 0x40000)
    (hblocks : ∀ i < sizeBlocksOf s.content dir, ∃ b, Holds s.content dir (.data i) b)
    (hd : Dirent s.content dir) (hm : s.mapped dir.block = true)
    (hi : i + n ≤ sizeBlocksOf s.content dir) :
    ∃ x s', MosVolca.dirLookupFrom s dir name n i = .ok (x, s') ∧ HasPages s' := by
  induction n generalizing s i with
  | zero => exact ⟨_, s, rfl, hg⟩
  | succ n ih =>
    obtain ⟨b, hold⟩ := hblocks i (by omega)
    obtain ⟨s1, hget, hg1⟩ := hs.fileGetBlock_granted hg hn hd hm hold
    obtain ⟨-, hload, -⟩ := fileGetBlock_held hm hold hget
    rw [MosVolca.dirLookupFrom, hget]
    simp only [ok_bind]
    cases hfind : findName s1 b name with
    | some j => exact ⟨_, _, rfl, hg1⟩
    | none =>
      rw [← hload.content] at hn hblocks hd hi
      exact ih (hload.inv hs) hg1 hn hblocks hd (hload.mapped _ hm) (by omega)

/-- The loop of the walks returns. -/
lemma walkElems_granted {d : Option FilePtr} (hs : CacheInv s) (hg : HasPages s)
    (hn : nblocksOf s.content ≤ 0x40000) (hw : Whole s.content) (hf : IsFile s.content f)
    (hm : s.mapped f.block = true) (hnames : ∀ e ∈ elems, IsName e) :
    ∃ w s', MosVolca.walkElems s d f elems = .ok (w, s') ∧ HasPages s' := by
  induction elems generalizing s d f with
  | nil => exact ⟨_, s, rfl, hg⟩
  | cons name rest ih =>
    rw [MosVolca.walkElems, load_eq (p := f.type) hm]
    by_cases hlen : name.length ≥ maxnamelen
    · exact ⟨_, s, if_pos hlen, hg⟩
    rw [if_neg hlen]
    by_cases ht : wordAt s.content f.type = ftypeDir
    · rw [if_neg (not_not_intro ht)]
      obtain ⟨x, s1, hdl, hg1⟩ : ∃ x s1, MosVolca.dirLookup s f name = .ok (x, s1) ∧ HasPages s1 := by
        unfold MosVolca.dirLookup
        rw [sizeBlocks_eq hm]
        exact hs.dirLookupFrom_granted hg hn (hw f hf ht) hf.dirent hm (by omega)
      obtain ⟨hl, hx, hmap⟩ := hs.dirLookup_whole hw hf hm ht hdl
      have hv := hl.visits hs
      rw [hdl]
      simp only [ok_bind]
      cases x with
      | error r =>
        simp only
        by_cases hlast : r = -eNotFound ∧ rest = []
        · exact ⟨_, s1, if_pos hlast, hg1⟩
        · exact ⟨_, s1, if_neg hlast, hg1⟩
      | ok g =>
        have hl : lookup s.content f name = some g := by
          cases hl : lookup s.content f name with
          | none =>
            rw [hl] at hx
            cases hx
          | some g' =>
            rw [hl] at hx
            cases hx
            rfl
        have hgf := lookup_isFile hf.dirent ht (hnames name List.mem_cons_self) hl
        exact ih hv.inv hg1 (by rw [hv.nblocks]; exact hn) (hv.whole hw) (hv.isFile_iff.mpr hgf)
          (hmap g rfl) fun e he => hnames e (List.mem_cons_of_mem name he)
    · exact ⟨_, s, if_pos ht, hg⟩

end CacheInv

/-! ## `walk_path` -/

/-- A path that leads to no link. -/
lemma CacheInv.type_of_linkedPath_none (hs : CacheInv s) (hi : Intact s.content)
    (hp : (0 : Char8) ∉ path)
    (h : MosVolca.walkElems s none FilePtr.root (pathElems path) = .ok (w, s1))
    (hl : linkedPath s.content path = none) (hfile : w.file = some f) :
    s1.load f.type ≠ ftypeLnk := by
  have hnames := isName_pathElems hp
  obtain ⟨hv, rfl, hmap⟩ := hs.walkElems_whole hi.whole (.inl rfl) hs.root.mapped hnames h
  have hf := walkOf_isFile (.inl rfl) hnames hfile
  rw [load_eq (p := f.type) (hmap f hfile), hv.browses.type hf.dirent]
  intro ht
  obtain ⟨-, t, htarget⟩ := hi.link f hf ht
  unfold linkedPath at hl
  rw [hfile, Option.bind_some, htarget] at hl
  cases hl

/-- A path that leads to a link: the block of the link can be read, and the string is there. -/
lemma CacheInv.block_of_linkedPath {t : List Char8} (hs : CacheInv s) (hi : Intact s.content)
    (hp : (0 : Char8) ∉ path)
    (h : MosVolca.walkElems s none FilePtr.root (pathElems path) = .ok (w, s1))
    (hl : linkedPath s.content path = some t) :
    ∃ f, w.file = some f ∧ s1.load f.type = ftypeLnk ∧
      Usable s1.content (s1.load (f.direct 0)).toNat ∧
      ∀ isnew s2, MosVolca.readBlock s1 (s1.load (f.direct 0)).toNat = .ok (isnew, s2) →
        s2.stringFrom (s1.load (f.direct 0)).toNat 4096 0 = some t := by
  have hnames := isName_pathElems hp
  obtain ⟨hv, rfl, hmap⟩ := hs.walkElems_whole hi.whole (.inl rfl) hs.root.mapped hnames h
  obtain ⟨f, hfile, htarget⟩ := Option.bind_eq_some_iff.mp hl
  have hf := walkOf_isFile (.inl rfl) hnames hfile
  have hlnk := target_type htarget
  have hi1 := hi.of_visits hv
  have hlnk1 : wordAt s1.content f.type = ftypeLnk := (hv.browses.type hf.dirent).trans hlnk
  obtain ⟨hne, -⟩ := hi1.link f (hv.isFile_iff.mpr hf) hlnk1
  have hold : Holds s1.content f (.data 0) (wordAt s1.content (f.direct 0)).toNat :=
    ⟨(by decide : 34 < 64), hne, rfl⟩
  have hdirect := load_eq (p := f.direct 0) (hmap f hfile)
  refine ⟨f, hfile, (load_eq (p := f.type) (hmap f hfile)).trans hlnk1, ?_, fun isnew s2 hread => ?_⟩
  · rw [hdirect]
    exact hv.inv.consistent.usable (hv.isFile_iff.mpr hf).dirent hold
  · rw [hdirect] at hread ⊢
    obtain ⟨hload, hm2⟩ := readBlock_loads hread
    rw [stringFrom_eq hm2, hload.content, ← htarget,
      ← hv.browses.target hf.dirent fun ht => (hi.link f hf ht).1]
    unfold target
    rw [if_pos hlnk1]

/-- A walk that returns comes to the end of the links. -/
lemma CacheInv.ends_of_walkPath {depth : ℕ} (hs : CacheInv s) (hi : Intact s.content)
    (hp : (0 : Char8) ∉ path) (hsame : ∀ q, (0 : Char8) ∉ q → linkedPath s.content q = linkedPath c q)
    (h : MosVolca.walkPath s path depth = .ok (w, s')) : Chain.Ends (linkedPath c) path := by
  induction depth generalizing s path w s' with
  | zero => cases h
  | succ depth ih =>
    rw [MosVolca.walkPath] at h
    obtain ⟨⟨x, s1⟩, helems, h1⟩ := bind_eq_ok.mp h
    have hnames := isName_pathElems hp
    obtain ⟨hv, -, -⟩ := hs.walkElems_whole hi.whole (.inl rfl) hs.root.mapped hnames helems
    cases hl : linkedPath s.content path with
    | none => exact .stop ((hsame path hp).symm.trans hl)
    | some t =>
      have hstep : Chain.Leads (linkedPath c) path t := (hsame path hp).symm.trans hl
      obtain ⟨f, hfile, hlnk, -, hstr⟩ := hs.block_of_linkedPath hi hp helems hl
      simp only [hfile] at h1
      rw [if_pos hlnk] at h1
      obtain ⟨⟨isnew, s2⟩, hread, h2⟩ := bind_eq_ok.mp h1
      simp only [hstr isnew s2 hread] at h2
      obtain ⟨⟨y, s3⟩, hwalk, -⟩ := bind_eq_ok.mp h2
      have hv2 := hv.trans ((readBlock_loads hread).1.visits hv.inv)
      obtain ⟨f', -, hf'⟩ := Option.bind_eq_some_iff.mp hl
      refine .step hstep (ih hv2.inv (hi.of_visits hv2) (target_no_zero hf') (fun q hq => ?_) hwalk)
      rw [hi.linkedPath_eq hv2 hq, hsame q hq]

/-- A walk returns if the links come to an end. -/
lemma CacheInv.walkPath_of_ends (hs : CacheInv s) (hi : Intact s.content) (hg : HasPages s)
    (hp : (0 : Char8) ∉ path) (hsame : ∀ q, (0 : Char8) ∉ q → linkedPath s.content q = linkedPath c q)
    (h : Chain.Ends (linkedPath c) path) :
    ∃ depth w s', MosVolca.walkPath s path depth = .ok (w, s') := by
  induction h generalizing s with
  | @stop path hstop =>
    have hnames := isName_pathElems hp
    obtain ⟨x, s1, helems, -⟩ :=
      hs.walkElems_granted (d := none) hg hi.small hi.whole (.inl rfl) hs.root.mapped hnames
    have hnone := (hsame path hp).trans hstop
    refine ⟨1, x, s1, ?_⟩
    rw [MosVolca.walkPath, helems]
    simp only [ok_bind]
    cases hfile : x.file with
    | none => rfl
    | some f => exact if_neg (hs.type_of_linkedPath_none hi hp helems hnone hfile)
  | @step path t hstep _ ih =>
    have hnames := isName_pathElems hp
    obtain ⟨x, s1, helems, hg1⟩ :=
      hs.walkElems_granted (d := none) hg hi.small hi.whole (.inl rfl) hs.root.mapped hnames
    obtain ⟨hv, -, -⟩ := hs.walkElems_whole hi.whole (.inl rfl) hs.root.mapped hnames helems
    have hl : linkedPath s.content path = some t := (hsame path hp).trans hstep
    obtain ⟨f, hfile, hlnk, hu, hstr⟩ := hs.block_of_linkedPath hi hp helems hl
    obtain ⟨isnew, s2, hread, hg2⟩ := hv.inv.readBlock_granted hg1 (hi.of_visits hv).small hu
    have hv2 := hv.trans ((readBlock_loads hread).1.visits hv.inv)
    obtain ⟨f', -, hf'⟩ := Option.bind_eq_some_iff.mp hl
    obtain ⟨depth, y, s3, hwalk⟩ := ih hv2.inv (hi.of_visits hv2) hg2 (target_no_zero hf')
      fun q hq => (hi.linkedPath_eq hv2 hq).trans (hsame q hq)
    refine ⟨depth + 1, { x with file := y.file }, s3, ?_⟩
    rw [MosVolca.walkPath, helems]
    simp only [ok_bind, hfile]
    rw [if_pos hlnk, hread]
    simp only [ok_bind, hstr isnew s2 hread, hwalk]
    rfl

/-- **`walk_path` returns** in an image that is in order, with any tree and any links, exactly if the
links that the path leads to do not go in a circle. -/
theorem walkPath_returns_iff (hs : CacheInv s) (hi : Intact s.content) (hg : HasPages s)
    (hp : (0 : Char8) ∉ path) :
    (∃ depth w s', walkPath s path depth = .ok (w, s')) ↔ ¬ LinksLoop s.content path := by
  rw [← hs.consistent.linksLoop_iff hp]
  constructor
  · rintro ⟨depth, w, s', h⟩
    exact hs.ends_of_walkPath hi hp (fun _ _ => rfl) h
  · exact hs.walkPath_of_ends hi hg hp fun _ _ => rfl

/-! ## A link to itself -/

lemma linkDisk_content (w : Word) : (linkDisk w).content = linkBlocks w := by
  funext b
  unfold BlockCache.content
  split_ifs
  · rfl
  · rfl

lemma linkBlocks_flat : FlatImage (linkBlocks 0x6C) 1 where
  root := ⟨by decide, by decide⟩
  plain := by decide
  entry := by decide
  first := rfl
  blocks := by decide
  used := by decide

/-- The cache with the link `l` to `l`. -/
lemma linkDisk_inv : CacheInv (linkDisk 0x6C) where
  super := rfl
  bitmap := rfl
  map := fun b _ hlt => by
    rw [linkDisk_content, linkBlocks_flat.first] at hlt
    exact decide_eq_true (by omega : b < 5)
  consistent := linkDisk_content 0x6C ▸ linkBlocks_flat.consistent

/-- The image is intact. -/
lemma linkBlocks_intact : Intact (linkBlocks 0x6C) where
  small := by decide
  whole := linkBlocks_flat.whole (by decide)
  link := by
    intro f hf ht
    rcases linkBlocks_flat.dirent hf.dirent with rfl | ⟨j, hj, rfl⟩
    · exact absurd ht (by decide)
    · have htype : ∀ j < 16, wordAt (linkBlocks 0x6C) (FilePtr.entry 3 j).type = ftypeLnk → j = 0 := by
        decide
      obtain rfl := htype j hj ht
      exact ⟨by decide, [0x6C], rfl⟩

/-- The link leads back to itself. -/
lemma linkBlocks_loop : LinksLoop (linkBlocks 0x6C) [0x6C] := by
  have hstep : Chain.Leads (linkedPath (linkBlocks 0x6C)) [0x6C] [0x6C] := by
    unfold Chain.Leads
    rfl
  exact ⟨[0x6C], .refl, .single hstep⟩

/-- The walk to the link. -/
theorem walkPath_returns_iff_self :
    (∃ depth w s', walkPath (linkDisk 0x6C) [0x6C] depth = .ok (w, s')) ↔
      ¬ LinksLoop (linkDisk 0x6C).content [0x6C] := by
  refine walkPath_returns_iff linkDisk_inv ?_ (fun _ => rfl) (by decide)
  rw [linkDisk_content]
  exact linkBlocks_intact

/-- **A walk without an end**: the link `l` to `l`. -/
theorem walkPath_linkLoop : ¬ ∀ s path, CacheInv s → Intact s.content → HasPages s →
    (0 : Char8) ∉ path → ∃ depth w s', walkPath s path depth = .ok (w, s') := by
  intro h
  have hi : Intact (linkDisk 0x6C).content := by
    rw [linkDisk_content]
    exact linkBlocks_intact
  obtain ⟨depth, w, s', hwalk⟩ := h _ [0x6C] linkDisk_inv hi (fun _ => rfl) (by decide)
  have hends := linkDisk_inv.ends_of_walkPath hi (by decide) (fun _ _ => rfl) hwalk
  rw [linkDisk_content] at hends
  exact hends.not_loops linkBlocks_loop

end MosVolca
