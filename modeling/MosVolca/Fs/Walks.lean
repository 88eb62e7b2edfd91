import MosVolca.Fs.BlockOwner
import MosVolca.Fs.Namespace
import Mathlib.Data.List.TakeWhile

/-!
# Walks along paths

The loop of `walk_path` and of `walk_path_at` on the characters of the path is the loop on its
elements. The walk along two paths with a slash between them is the walk along the first one, and
then `walk_path_at` from the directory that it leads to. In an image whose directories have all
their blocks the walks leave behind what the contents say.

## Main definitions

* `MosVolca.skipSlash`, `MosVolca.walkScan` — the loop on the characters.
* `MosVolca.NamesLink` — the path names a link.
* `MosVolca.Whole` — the directories have all their blocks.
* `MosVolca.Looks` — a walk that makes no blocks.

## Main results

* `MosVolca.walkScan_eq` — the two loops agree.
* `MosVolca.CacheInv.walkElems_whole` — the walks and the contents.
* `MosVolca.walkPath_append` — the walkers compose.
-/

namespace MosVolca

variable {c c' : Blocks} {s s' s1 : BlockCache} {f g d dir : FilePtr} {b i n bno : ℕ}
  {name path path' : List Char8} {elems xs ys : List (List Char8)} {r : Word} {w : Walk}

/-! ## The scans -/

/-- `skip_slash`. -/
def skipSlash (p : List Char8) : List Char8 := p.dropWhile (· == slash)

/-- Skipping slashes makes a string no longer. -/
lemma length_skipSlash_le (p : List Char8) : (skipSlash p).length ≤ p.length :=
  (List.dropWhile_suffix _).length_le

/-- What is left after an element and the slashes behind it is shorter. -/
lemma length_rest_lt {p : List Char8} (hp : p ≠ []) :
    (skipSlash (p.dropWhile (· != slash))).length < p.length := by
  cases p with
  | nil => exact absurd rfl hp
  | cons x l =>
    rw [List.length_cons, Nat.lt_succ_iff, List.dropWhile_cons]
    split_ifs with hx
    · exact (length_skipSlash_le _).trans (List.dropWhile_suffix _).length_le
    · have hx : x = slash := by simpa using hx
      subst hx
      rw [skipSlash, List.dropWhile_cons_of_pos (by decide)]
      exact length_skipSlash_le l

/-- The loop of `walk_path` and of `walk_path_at` on what is left of the path. -/
def walkScan (s : BlockCache) (dir : Option FilePtr) (file : FilePtr) (path : List Char8) :
    Kernel (Walk × BlockCache) :=
  if _hp : path = [] then pure (⟨0, dir, some file, []⟩, s)
  else do
    let name := path.takeWhile (· != slash)
    if name.length ≥ maxnamelen then pure (⟨-eBadPath, none, none, []⟩, s)
    else if s.load file.type ≠ ftypeDir then pure (⟨-eNotFound, none, none, []⟩, s)
    else
      match ← dirLookup s file name with
      | (.ok f, s) => walkScan s (some file) f (skipSlash (path.dropWhile (· != slash)))
      | (.error r, s) =>
        if r = -eNotFound ∧ skipSlash (path.dropWhile (· != slash)) = [] then
          pure (⟨r, some file, none, name⟩, s)
        else pure (⟨r, none, none, []⟩, s)
termination_by path.length
decreasing_by exact length_rest_lt _hp

lemma pathElems_slash (p : List Char8) : pathElems (slash :: p) = pathElems p := by
  unfold pathElems
  rw [List.splitOnP_cons_eq_if_modifyHead, if_pos (by decide),
    List.filter_cons_of_neg (by decide)]

lemma pathElems_skipSlash (p : List Char8) : pathElems (skipSlash p) = pathElems p := by
  induction p with
  | nil => rfl
  | cons x p ih =>
    unfold skipSlash at ih ⊢
    rw [List.dropWhile_cons]
    split_ifs with hx
    · obtain rfl : x = slash := by simpa using hx
      rw [ih, pathElems_slash]
    · rfl

/-- **The elements of two paths** with a slash between them. -/
lemma pathElems_append (a b : List Char8) :
    pathElems (a ++ slash :: b) = pathElems a ++ pathElems b := by
  unfold pathElems
  rw [List.splitOnP_append_cons a b (by decide), List.filter_append]

/-- A string without a slash is the only element. -/
lemma pathElems_of_no_slash {p : List Char8} (h : slash ∉ p) (hne : p ≠ []) : pathElems p = [p] := by
  unfold pathElems
  have hsplit : p.splitOnP (· == slash) = [p] :=
    List.splitOnP_eq_singleton fun x hx => beq_eq_false_iff_ne.mpr fun he : x = slash => h (he ▸ hx)
  rw [hsplit]
  exact List.filter_cons_of_pos (by simpa using hne)

lemma slash_notMem_takeWhile (p : List Char8) : slash ∉ p.takeWhile (· != slash) := fun h => by
  simpa using List.mem_takeWhile_imp h

/-- What comes behind the first element starts with a slash. -/
lemma eq_slash_of_dropWhile {p l : List Char8} {x : Char8}
    (hd : p.dropWhile (· != slash) = x :: l) : x = slash := by
  have hnot := List.head?_dropWhile_not (· != slash) p
  rw [hd] at hnot
  simpa using hnot

/-- The first element and what is left after it. -/
lemma pathElems_takeWhile {p : List Char8} (hne : p.takeWhile (· != slash) ≠ []) :
    pathElems p = p.takeWhile (· != slash) ::
      pathElems (skipSlash (p.dropWhile (· != slash))) := by
  have hno := slash_notMem_takeWhile p
  rw [pathElems_skipSlash]
  conv_lhs => rw [← List.takeWhile_append_dropWhile (p := (· != slash)) (l := p)]
  cases hd : p.dropWhile (· != slash) with
  | nil => rw [List.append_nil, pathElems_of_no_slash hno hne]; rfl
  | cons x l =>
    rw [eq_slash_of_dropWhile hd, pathElems_append, pathElems_of_no_slash hno hne, pathElems_slash]
    rfl

/-- After the slashes comes another character. -/
lemma head_skipSlash (p : List Char8) : (skipSlash p).head? ≠ some slash := by
  intro h
  have hnot := List.head?_dropWhile_not (· == slash) p
  rw [show p.dropWhile (· == slash) = skipSlash p from rfl, h] at hnot
  simp at hnot

lemma takeWhile_ne_nil {p : List Char8} (hp : p ≠ []) (h : p.head? ≠ some slash) :
    p.takeWhile (· != slash) ≠ [] := by
  cases p with
  | nil => exact absurd rfl hp
  | cons x l =>
    have hx : (x != slash) = true := bne_iff_ne.mpr fun he => h (congrArg some he)
    rw [List.takeWhile_cons_of_pos (p := (· != slash)) hx]
    exact List.cons_ne_nil _ _

/-- An element is missing from a path exactly if the path is at its end. -/
lemma pathElems_eq_nil {p : List Char8} (h : p.head? ≠ some slash) : pathElems p = [] ↔ p = [] := by
  constructor
  · intro he
    by_contra hp
    rw [pathElems_takeWhile (takeWhile_ne_nil hp h)] at he
    exact List.cons_ne_nil _ _ he
  · rintro rfl
    rfl

/-- **The loop on the characters** is the loop on the elements. -/
theorem walkScan_eq (s : BlockCache) (dir : Option FilePtr) (file : FilePtr) {path : List Char8}
    (h : path.head? ≠ some slash) :
    walkScan s dir file path = walkElems s dir file (pathElems path) := by
  induction hn : path.length using Nat.strong_induction_on generalizing s dir file path with
  | _ n ih =>
    rw [walkScan]
    by_cases hp : path = []
    · rw [dif_pos hp, (pathElems_eq_nil h).mpr hp]
      rfl
    · rw [dif_neg hp, pathElems_takeWhile (takeWhile_ne_nil hp h), walkElems]
      simp only
      refine ite_congr rfl (fun _ => rfl) fun _ => ite_congr rfl (fun _ => rfl) fun _ => ?_
      cases hl : dirLookup s file (path.takeWhile (· != slash)) with
      | error e => rfl
      | ok y =>
        obtain ⟨x, s1⟩ := y
        have hlt := length_rest_lt hp
        cases x with
        | ok f => exact ih _ (hn ▸ hlt) s1 (some file) f (head_skipSlash _) rfl
        | error r =>
          refine ite_congr (propext ?_) (fun _ => rfl) fun _ => rfl
          rw [pathElems_eq_nil (head_skipSlash _)]

/-! ## One walk after the other -/

/-- The directory of a walk with elements does not matter. -/
lemma walkElems_dir (h : elems ≠ []) (d d' : Option FilePtr) :
    walkElems s d f elems = walkElems s d' f elems := by
  cases elems with
  | nil => exact absurd rfl h
  | cons name rest => rfl

/-- **The walk along the elements of two paths** is one walk after the other. -/
theorem walkElems_append {d : Option FilePtr} (h : walkElems s d f xs = .ok (w, s1))
    (hfile : w.file = some g) (hys : ys ≠ []) :
    walkElems s d f (xs ++ ys) = walkElems s1 none g ys := by
  induction xs generalizing s d f with
  | nil =>
    cases h
    cases hfile
    exact walkElems_dir hys d none
  | cons name rest ih =>
    rw [walkElems] at h
    rw [List.cons_append, walkElems]
    split_ifs at h with hlen htype
    · cases h
      cases hfile
    · cases h
      cases hfile
    · rw [if_neg hlen, if_neg htype]
      obtain ⟨⟨y, s2⟩, hlook, h1⟩ := bind_eq_ok.mp h
      rw [hlook]
      cases y with
      | ok f1 => exact ih h1
      | error r =>
        simp only at h1
        split_ifs at h1 with hlast
        · cases h1
          cases hfile
        · cases h1
          cases hfile

/-! ## Directories with all their blocks -/

/-- The directories have all their blocks. -/
def Whole (c : Blocks) : Prop :=
  ∀ d, IsFile c d → wordAt c d.type = ftypeDir → ∀ i < sizeBlocksOf c d, ∃ b, Holds c d (.data i) b

/-- A change by walks that find every block. -/
structure Visits (s s' : BlockCache) : Prop where
  inv : CacheInv s'
  same : SameFiles s s'
  browses : Browses s.content s'.content
  nblocks : nblocksOf s'.content = nblocksOf s.content

lemma Loads.visits (h : Loads s s') (hs : CacheInv s) : Visits s s' :=
  ⟨h.inv hs, h.sameFiles, h.browses, congrArg nblocksOf h.content⟩

namespace Visits

lemma trans (h : Visits s s1) (h' : Visits s1 s') : Visits s s' :=
  ⟨h'.inv, h.same.trans h'.same, h.browses.trans h'.browses, h'.nblocks.trans h.nblocks⟩

/-- A visit leaves the files. -/
lemma isFile_iff (h : Visits s s') : IsFile s'.content f ↔ IsFile s.content f := by
  unfold IsFile
  rw [h.same.dirent_iff]
  refine or_congr_right (and_congr_right fun hf => h.browses.named_iff hf)

lemma whole (h : Visits s s') (hw : Whole s.content) : Whole s'.content := by
  intro d hd ht i hi
  have hd := h.isFile_iff.mp hd
  rw [h.browses.type hd.dirent] at ht
  rw [h.browses.size hd.dirent] at hi
  obtain ⟨b, hold⟩ := hw d hd ht i hi
  exact ⟨b, h.browses.kept d i b hd.dirent hold⟩

end Visits

/-- A walk that makes no blocks: blocks are read, and `f_dir` of entries is written. -/
inductive Looks (s : BlockCache) : BlockCache → Prop
  | refl : Looks s s
  | read {t u : BlockCache} {b : ℕ} {isnew : Bool} (h : Looks s t)
      (hread : readBlock t b = .ok (isnew, u)) : Looks s u
  | dir {t : BlockCache} {f : FilePtr} {r : Word} (h : Looks s t) (hf : Dirent t.content f)
      (hm : t.mapped f.block = true) : Looks s (t.store f.dir r)

lemma Looks.trans (h : Looks s s1) (h' : Looks s1 s') : Looks s s' := by
  induction h' with
  | refl => exact h
  | read _ hread ih => exact ih.read hread
  | dir _ hf hm ih => exact ih.dir hf hm

/-- The block pointer of a block that is there. -/
lemma fileBlockWalk_held {alloc : Bool} {x : Except Word WordPtr} (hm : s.mapped f.block = true)
    (hold : Holds s.content f (.data bno) b) (h : fileBlockWalk s f bno alloc = .ok (x, s')) :
    ∃ ptr, x = .ok ptr ∧ Loads s s' ∧ Looks s s' ∧ s'.load ptr ≠ 0 ∧ (s'.load ptr).toNat = b := by
  obtain ⟨hfield, hne, hb⟩ := hold
  rcases fileBlockWalk_cases h with ⟨hlt, rfl, rfl⟩ | ⟨hge, -, -⟩ | ⟨hge, hlt, hcase⟩
  · rw [show (Slot.data bno).field = .head (34 + bno) from if_pos hlt] at hne hb
    refine ⟨_, rfl, .refl _, .refl, ?_, ?_⟩
    · rwa [load_eq (p := f.direct bno) hm]
    · rwa [load_eq (p := f.direct bno) hm]
  · have h10 : ¬ bno < ndirect := Nat.not_lt.mpr ((by decide : ndirect ≤ nindirect).trans hge)
    rw [show (Slot.data bno).field = .far bno from if_neg h10] at hfield
    exact absurd hfield.2.1 (Nat.not_lt.mpr hge)
  · rw [show (Slot.data bno).field = .far bno from if_neg (Nat.not_lt.mpr hge)] at hfield hne hb
    have hind : s.load f.indirect ≠ 0 := by
      rw [load_eq (p := f.indirect) hm]
      exact hfield.2.2
    have hneed : ∀ {y : Except Word Unit} {s1}, needIndirect s f alloc = .ok (y, s1) →
        y = .ok () ∧ s1 = s := by
      intro y s1 hneed
      rcases needIndirect_cases hneed with ⟨-, hy, hs⟩ | ⟨h0, -⟩ | ⟨h0, -⟩
      · exact ⟨hy, hs⟩
      · exact absurd h0 hind
      · exact absurd h0 hind
    rcases hcase with ⟨r, hn, -⟩ | ⟨isnew, s1, hn, hread, rfl⟩
    · cases (hneed hn).1
    · obtain ⟨-, rfl⟩ := hneed hn
      obtain ⟨hload, hmap⟩ := readBlock_loads hread
      refine ⟨_, rfl, hload, .read .refl hread, ?_⟩
      have hload' := load_eq (p := ⟨(s1.load f.indirect).toNat, bno⟩) hmap
      rw [hload.content, load_eq (p := f.indirect) hm] at hload'
      rw [load_eq (p := f.indirect) hm, hload']
      exact ⟨hne, hb⟩

/-- **`file_get_block`** of a block that is there makes no blocks. -/
lemma fileGetBlock_held {x : Except Word ℕ} (hm : s.mapped f.block = true)
    (hold : Holds s.content f (.data bno) b) (h : fileGetBlock s f bno = .ok (x, s')) :
    x = .ok b ∧ Loads s s' ∧ s'.mapped b = true ∧ Looks s s' := by
  unfold fileGetBlock at h
  obtain ⟨⟨y, s1⟩, hmap, h1⟩ := bind_eq_ok.mp h
  have hmap : y = .ok b ∧ Loads s s1 ∧ Looks s s1 := by
    rcases fileMapBlock_cases hmap with ⟨r, hwalk, -⟩ | ⟨ptr, s2, hwalk, hcase⟩
    · obtain ⟨ptr, hx, -⟩ := fileBlockWalk_held hm hold hwalk
      cases hx
    · obtain ⟨ptr', hx, hload, hl, hne, hb⟩ := fileBlockWalk_held hm hold hwalk
      cases hx
      rcases hcase with ⟨-, rfl, rfl⟩ | ⟨h0, -⟩ | ⟨h0, -⟩
      · exact ⟨congrArg _ hb, hload, hl⟩
      · exact absurd h0 hne
      · exact absurd h0 hne
  obtain ⟨rfl, hload, hl⟩ := hmap
  obtain ⟨⟨isnew, s2⟩, hread, h2⟩ := bind_eq_ok.mp h1
  cases h2
  obtain ⟨hload', hmapped⟩ := readBlock_loads hread
  exact ⟨rfl, hload.trans hload', hmapped, hl.read hread⟩

/-- What `dir_lookup` returns. -/
def foundOr (x : Option FilePtr) : Except Word FilePtr :=
  match x with
  | some f => .ok f
  | none => .error (-eNotFound)

namespace CacheInv

/-- `f_dir` of an entry is written. -/
lemma storeDir_visits (hs : CacheInv s) (hf : Dirent s.content f) (hm : s.mapped f.block = true) :
    Visits s (s.store f.dir r) := by
  obtain ⟨hs', hsame⟩ := hs.storeOther (k := 45) (w := r) hf hm (.inr ⟨by decide, by decide⟩)
  refine ⟨hs', hsame, hs.storeDir_browses hf hm, ?_⟩
  rw [content_store (p := f.dir) hm]
  exact (sameMap_putWord (hs.consistent.outside_placeOf hf (x := .head 45)
    (by decide : 45 < 64))).nblocks

end CacheInv

/-- **A walk that makes no blocks** does not show. -/
theorem Looks.visits (h : Looks s s') (hs : CacheInv s) : Visits s s' := by
  induction h with
  | refl => exact (Loads.refl s).visits hs
  | read _ hread ih => exact ih.trans ((readBlock_loads hread).1.visits ih.inv)
  | dir _ hf hm ih => exact ih.trans (ih.inv.storeDir_visits hf hm)

namespace CacheInv

/-- The loop of `dir_lookup` in a directory with all its blocks. -/
lemma dirLookupFrom_whole {x : Except Word FilePtr} (hs : CacheInv s)
    (hblocks : ∀ i < sizeBlocksOf s.content dir, ∃ b, Holds s.content dir (.data i) b)
    (hd : Dirent s.content dir) (hm : s.mapped dir.block = true)
    (ht : wordAt s.content dir.type = ftypeDir) (hn : i + n ≤ sizeBlocksOf s.content dir)
    (h : MosVolca.dirLookupFrom s dir name n i = .ok (x, s')) :
    Looks s s' ∧ x = foundOr (lookupFrom s.content dir name n i) ∧
      ∀ f, x = .ok f → s'.mapped f.block = true := by
  induction n generalizing s i with
  | zero =>
    cases h
    refine ⟨.refl, rfl, fun f hf => ?_⟩
    cases hf
  | succ n ih =>
    rw [MosVolca.dirLookupFrom] at h
    obtain ⟨⟨y, s1⟩, hget, h1⟩ := bind_eq_ok.mp h
    obtain ⟨b, hold⟩ := hblocks i (by omega)
    obtain ⟨rfl, hload, hmb, hl⟩ := fileGetBlock_held hm hold hget
    rw [lookupFrom, blockOf_eq_some.mpr hold, Option.bind_some, ← hload.content,
      ← findName_eq hmb]
    simp only at h1
    split at h1
    · rename_i j hfind
      have hj := lt_of_find_entry hfind
      cases h1
      have hentry : Dirent s1.content (FilePtr.entry b j) := by
        rw [hload.content]
        exact dirent_entry hd ht (by omega) hold hj
      rw [hfind, Option.map_some]
      refine ⟨hl.dir hentry hmb, rfl, fun f hf => ?_⟩
      cases hf
      exact hmb
    · rename_i hfind
      rw [hfind, Option.map_none]
      rw [← hload.content] at hblocks hd ht hn
      obtain ⟨hl', hx, hmap⟩ := ih (hload.inv hs) hblocks hd (hload.mapped _ hm) ht (by omega) h1
      exact ⟨hl.trans hl', hx, hmap⟩

/-- **`dir_lookup`** in a directory with all its blocks. -/
lemma dirLookup_whole {x : Except Word FilePtr} (hs : CacheInv s) (hw : Whole s.content)
    (hd : IsFile s.content dir) (hm : s.mapped dir.block = true)
    (ht : wordAt s.content dir.type = ftypeDir) (h : MosVolca.dirLookup s dir name = .ok (x, s')) :
    Looks s s' ∧ x = foundOr (lookup s.content dir name) ∧
      ∀ f, x = .ok f → s'.mapped f.block = true := by
  unfold MosVolca.dirLookup at h
  rw [sizeBlocks_eq hm] at h
  exact hs.dirLookupFrom_whole (hw dir hd ht) hd.dirent hm ht (by omega) h

/-- **The loop of the walks** makes no blocks and leaves behind what the contents say. -/
theorem walkElems_held {d : Option FilePtr} {x : Walk} (hs : CacheInv s) (hw : Whole s.content)
    (hf : IsFile s.content f) (hm : s.mapped f.block = true) (hnames : ∀ e ∈ elems, IsName e)
    (h : MosVolca.walkElems s d f elems = .ok (x, s')) :
    Looks s s' ∧ x = walkOf s.content d f elems ∧
      (∀ g, x.file = some g → s'.mapped g.block = true) ∧
      ∀ g, x.code ≠ 0 → x.dir = some g → s'.mapped g.block = true := by
  induction elems generalizing s d f with
  | nil =>
    cases h
    refine ⟨.refl, rfl, fun g hg => ?_, fun _ hne => absurd rfl hne⟩
    cases hg
    exact hm
  | cons name rest ih =>
    have herror : ∀ {t t' : BlockCache} {y : Walk}, Looks s t → y.file = none →
        (∀ g, y.dir = some g → g = f) → (Except.ok (y, t) : Kernel _) = .ok (x, t') →
          Looks s t' ∧ x = y ∧ (∀ g, x.file = some g → t'.mapped g.block = true) ∧
            ∀ g, x.code ≠ 0 → x.dir = some g → t'.mapped g.block = true := by
      intro t t' y hl hy hd he
      cases he
      refine ⟨hl, rfl, fun g hg => ?_, fun g _ hg => ?_⟩
      · rw [hy] at hg
        cases hg
      · exact hd g hg ▸ (hl.visits hs).same.mapped _ hm
    have hno : ∀ g, (none : Option FilePtr) = some g → g = f := fun g hg => by cases hg
    rw [MosVolca.walkElems, load_eq (p := f.type) hm] at h
    rw [walkOf]
    by_cases hlen : name.length ≥ maxnamelen
    · rw [if_pos hlen] at h ⊢
      exact herror .refl rfl hno h
    rw [if_neg hlen] at h ⊢
    by_cases ht : wordAt s.content f.type = ftypeDir
    · rw [if_neg (not_not_intro ht)] at h ⊢
      obtain ⟨⟨y, s1⟩, hdl, h1⟩ := bind_eq_ok.mp h
      obtain ⟨hl, rfl, hmap⟩ := hs.dirLookup_whole hw hf hm ht hdl
      have hv := hl.visits hs
      cases hfound : lookup s.content f name with
      | some g =>
        rw [hfound] at h1 hmap
        have hg := lookup_isFile hf.dirent ht (hnames name List.mem_cons_self) hfound
        have hrest : ∀ e ∈ rest, IsName e := fun e he => hnames e (List.mem_cons_of_mem name he)
        obtain ⟨hl', hx, hres⟩ := ih hv.inv (hv.whole hw) (hv.isFile_iff.mpr hg) (hmap g rfl) hrest h1
        refine ⟨hl.trans hl', ?_, hres⟩
        rw [hx, hv.browses.walkOf hg hrest]
      | none =>
        rw [hfound] at h1
        simp only [foundOr, true_and] at h1 ⊢
        by_cases hlast : rest = []
        · rw [if_pos hlast] at h1 ⊢
          exact herror hl rfl (fun g hg => (Option.some.inj hg).symm) h1
        · rw [if_neg hlast] at h1 ⊢
          exact herror hl rfl hno h1
    · rw [if_pos ht] at h ⊢
      exact herror .refl rfl hno h

/-- **The walks leave behind what the contents say.** -/
theorem walkElems_whole {d : Option FilePtr} {x : Walk} (hs : CacheInv s) (hw : Whole s.content)
    (hf : IsFile s.content f) (hm : s.mapped f.block = true) (hnames : ∀ e ∈ elems, IsName e)
    (h : MosVolca.walkElems s d f elems = .ok (x, s')) :
    Visits s s' ∧ x = walkOf s.content d f elems ∧
      ∀ g, x.file = some g → s'.mapped g.block = true := by
  obtain ⟨hl, hx, hmap, -⟩ := hs.walkElems_held hw hf hm hnames h
  exact ⟨hl.visits hs, hx, hmap⟩

end CacheInv

/-! ## Two paths -/

/-- The path names a link. -/
def NamesLink (s : BlockCache) (path : List Char8) : Prop :=
  ∃ f t, Leads s FilePtr.root (pathElems path) f t ∧ t.load f.type = ftypeLnk

/-- A walk that does not end at a link. -/
lemma walkPath_of_not_link {depth : ℕ} (h : ¬ NamesLink s path) :
    walkPath s path (depth + 1) = walkElems s none FilePtr.root (pathElems path) := by
  rw [walkPath]
  cases hw : walkElems s none FilePtr.root (pathElems path) with
  | error e => rfl
  | ok y =>
    obtain ⟨w, s1⟩ := y
    simp only [ok_bind]
    rcases walkElems_cases hw with ⟨-, g, hfile, hl⟩ | ⟨-, hfile, -⟩
    · rw [hfile]
      simp only
      rw [if_neg fun hlnk => h ⟨g, s1, hl, hlnk⟩]
      rfl
    · rw [hfile]
      rfl

/-- Whether a path names a link, in the contents. -/
lemma CacheInv.namesLink_iff (hs : CacheInv s) (hw : Whole s.content) (hp : (0 : Char8) ∉ path)
    (h : MosVolca.walkElems s none FilePtr.root (pathElems path) = .ok (w, s')) :
    NamesLink s path ↔ ∃ f, (walkOf s.content none FilePtr.root (pathElems path)).file = some f ∧
      wordAt s.content f.type = ftypeLnk := by
  have hnames := isName_pathElems hp
  obtain ⟨hv, rfl, hmap⟩ := hs.walkElems_whole hw (.inl rfl) hs.root.mapped hnames h
  have htype : ∀ f, (walkOf s.content none FilePtr.root (pathElems path)).file = some f →
      s'.load f.type = wordAt s.content f.type := by
    intro f hf
    rw [load_eq (p := f.type) (hmap f hf), hv.browses.type (walkOf_isFile (.inl rfl) hnames hf).dirent]
  constructor
  · rintro ⟨f, t, hl, hlnk⟩
    rcases walkElems_cases h with ⟨-, g, hfile, hl'⟩ | ⟨-, -, hno⟩
    · obtain ⟨rfl, rfl⟩ := hl.unique hl'
      exact ⟨f, hfile, (htype f hfile).symm.trans hlnk⟩
    · exact absurd hl (hno f t)
  · rintro ⟨f, hfile, hlnk⟩
    rcases walkElems_cases h with ⟨-, g, hg, hl⟩ | ⟨-, hnone, -⟩
    · obtain rfl : g = f := Option.some.inj (hg.symm.trans hfile)
      exact ⟨g, s', hl, (htype g hfile).trans hlnk⟩
    · exact absurd (hnone.symm.trans hfile) (by simp)

/-- **The walkers compose.** After the walk along `a` to `d`, the walk along `a/b` is the walk along
`b` from `d`: it returns the same, and leaves the same state behind. In a consistent image whose
directories have all their blocks this is also so if both start where the walk along `a` ended. -/
theorem walkPath_append {a b : List Char8} {depth : ℕ} (ha : walkPath s a depth = .ok (w, s1))
    (hfile : w.file = some d) (hb : ∃ x ∈ b, x ≠ slash) (hlnk : ¬ NamesLink s a)
    (hlnk' : ¬ NamesLink s (a ++ slash :: b)) :
    walkPath s (a ++ slash :: b) depth = walkPathAt s1 d b ∧
      (CacheInv s → Whole s.content → (0 : Char8) ∉ a ++ slash :: b → ∀ w2 s2 w3 s3,
        walkPath s1 (a ++ slash :: b) depth = .ok (w2, s2) → walkPathAt s1 d b = .ok (w3, s3) →
          w2 = w3) := by
  cases depth with
  | zero => cases ha
  | succ depth =>
    have hne : pathElems b ≠ [] := by
      obtain ⟨x, hx, hxs⟩ := hb
      rw [← pathElems_skipSlash]
      refine fun he => hxs ?_
      have hnil : b.dropWhile (· == slash) = [] := (pathElems_eq_nil (head_skipSlash b)).mp he
      simpa using List.dropWhile_eq_nil_iff.mp hnil x hx
    rw [walkPath_of_not_link hlnk] at ha
    have hcompose : walkElems s none FilePtr.root (pathElems (a ++ slash :: b)) =
        walkPathAt s1 d b := by
      rw [pathElems_append]
      exact walkElems_append ha hfile hne
    refine ⟨(walkPath_of_not_link hlnk').trans hcompose, fun hs hw hp w2 s2 w3 s3 h2 h3 => ?_⟩
    have hnames := isName_pathElems hp
    have hpa : ∀ e ∈ pathElems a, IsName e := by
      intro e he
      refine hnames e ?_
      rw [pathElems_append]
      exact List.mem_append_left _ he
    obtain ⟨hv, -, -⟩ := hs.walkElems_whole hw (.inl rfl) hs.root.mapped hpa ha
    have hw1 := hv.whole hw
    have hsame := hv.browses.walkOf (d := none) (.inl rfl) hnames
    have h3 := hcompose.trans h3
    obtain ⟨-, hx3, -⟩ := hs.walkElems_whole hw (.inl rfl) hs.root.mapped hnames h3
    -- the walk from `s1` does not end at a link either
    rw [walkPath] at h2
    obtain ⟨⟨x, t⟩, hx, -⟩ := bind_eq_ok.mp h2
    have hno : ¬ NamesLink s1 (a ++ slash :: b) := by
      rw [hv.inv.namesLink_iff hw1 hp hx, hsame]
      rintro ⟨f, hf, hft⟩
      refine hlnk' ((hs.namesLink_iff hw hp h3).mpr ⟨f, hf, ?_⟩)
      rwa [hv.browses.type (walkOf_isFile (.inl rfl) hnames hf).dirent] at hft
    rw [← walkPath, walkPath_of_not_link hno] at h2
    obtain ⟨-, hx2, -⟩ := hv.inv.walkElems_whole hw1 (.inl rfl) hv.inv.root.mapped hnames h2
    rw [hx2, hsame, hx3]

/-- An image with files in the root only: the root has its block. -/
lemma FlatImage.whole {c : Blocks} {n : ℕ} (h : FlatImage c n)
    (hsize : sizeBlocksOf c FilePtr.root = 1) : Whole c := by
  intro d hd ht i hi
  rcases h.dirent hd.dirent with rfl | ⟨j, hj, rfl⟩
  · obtain rfl : i = 0 := by omega
    have hfirst : wordAt c (FilePtr.root.direct 0) = 3 := h.root.2 0 (by decide)
    refine ⟨3, (by decide : 34 < 64), ?_, congrArg BitVec.toNat hfirst⟩
    rw [show placeOf c FilePtr.root (Slot.data 0).field = FilePtr.root.direct 0 from rfl, hfirst]
    decide
  · exact absurd ht (h.plain j hj).1

/-- The cache of the image with the files `a` and `b`. -/
def filesCache : BlockCache where
  mem := twoFiles
  mapped := fun b => decide (b < 6)
  dirty := fun _ => false
  disk := twoFiles
  super := true
  bitmap := true
  grants := fun _ => true

/-- Nothing is below the file `/a`: the walk along `/a/x` says so, and so does the walk along `x` from
the file. -/
theorem walkPath_append_missing : ∃ s1,
    walkPath filesCache [0x2F, 0x61] 1 =
      .ok (⟨0, some FilePtr.root, some (FilePtr.entry 3 0), []⟩, s1) ∧
    walkPath filesCache ([0x2F, 0x61] ++ slash :: [0x78]) 1 =
      walkPathAt s1 (FilePtr.entry 3 0) [0x78] ∧
    ∀ w2 s2 w3 s3, walkPath s1 ([0x2F, 0x61] ++ slash :: [0x78]) 1 = .ok (w2, s2) →
      walkPathAt s1 (FilePtr.entry 3 0) [0x78] = .ok (w3, s3) → w2 = w3 := by
  have hcon : filesCache.content = twoFiles := by
    funext b
    unfold BlockCache.content
    split_ifs
    · rfl
    · rfl
  have hs : CacheInv filesCache := ⟨rfl, rfl, fun b _ hlt => by
    rw [hcon, twoFiles_flat.first] at hlt
    exact decide_eq_true (by omega : b < 6), hcon ▸ twoFiles_consistent⟩
  have hw : Whole filesCache.content := hcon ▸ twoFiles_flat.whole (by decide)
  have hno : ∀ path w s', (0 : Char8) ∉ path →
      walkElems filesCache none FilePtr.root (pathElems path) = .ok (w, s') →
      (∀ f, (walkOf twoFiles none FilePtr.root (pathElems path)).file = some f →
        wordAt twoFiles f.type ≠ ftypeLnk) → ¬ NamesLink filesCache path := by
    intro path w s' hp h hne hlnk
    obtain ⟨f, hf, ht⟩ := (hs.namesLink_iff hw hp h).mp hlnk
    rw [hcon] at hf ht
    exact hne f hf ht
  obtain ⟨s1, ha⟩ : ∃ s1, walkElems filesCache none FilePtr.root (pathElems [0x2F, 0x61]) =
      .ok (⟨0, some FilePtr.root, some (FilePtr.entry 3 0), []⟩, s1) := ⟨_, rfl⟩
  obtain ⟨w, s2, hax⟩ : ∃ w s2, walkElems filesCache none FilePtr.root
      (pathElems ([0x2F, 0x61] ++ slash :: [0x78])) = .ok (w, s2) := ⟨_, _, rfl⟩
  have hna := hno [0x2F, 0x61] _ _ (by decide) ha fun f hf => by
    cases hf
    decide
  have hnax := hno _ _ _ (by decide) hax fun f hf => by cases hf
  have hwalk : walkPath filesCache [0x2F, 0x61] 1 =
      .ok (⟨0, some FilePtr.root, some (FilePtr.entry 3 0), []⟩, s1) :=
    (walkPath_of_not_link hna).trans ha
  obtain ⟨hsame, hboth⟩ := walkPath_append hwalk rfl ⟨0x78, by decide, by decide⟩ hna hnax
  exact ⟨s1, hwalk, hsame, hboth hs hw (by decide)⟩

end MosVolca
