import MosVolca.Fs.OpenAnswers

/-!
# Path strings

`catPath`, `toParentPath` and `splitPath` of `lib/string.c`, on strings without their null byte, and
the directories that a path and its parent path lead to. `toParentPath` cuts a string off at its last
slash, so a slash at the end of the path is all that it takes away.

## Main definitions

* `MosVolca.catPath`, `MosVolca.toParentPath`, `MosVolca.splitPath` — the functions.
* `MosVolca.ParentDir` — the parent of a directory.

## Main results

* `MosVolca.pathElems_toParentPath` — the elements of the parent path.
* `MosVolca.toParentPath_parent_iff` — when the parent path leads to the parent.
-/

namespace MosVolca

variable {c : Blocks} {s : BlockCache} {f g d dir par : FilePtr} {a b p q path pre stale : List Char8}
  {elems : List (List Char8)}

/-! ## The functions -/

/-- `catPath`, for a string `pre` that is not empty. -/
def catPath (pre path : List Char8) : List Char8 :=
  if pre.getLast? ≠ some slash ∧ path.head? ≠ some slash then pre ++ slash :: path
  else pre ++ path

/-- The loop of `toParentPath` on the string in reverse: what is left when it breaks. -/
def cutLast : List Char8 → List Char8
  | [] => []
  | x :: rest => if x = slash then rest else cutLast rest

/-- `toParentPath`. -/
def toParentPath (pathName : List Char8) : List Char8 :=
  if pathName = [slash] then pathName
  else
    let pathName := (cutLast pathName.reverse).reverse
    if pathName = [] then [slash] else pathName

/-- `splitPath`: `firDir` and `nextPath`, or `none` for -1. Without a slash nothing is stored to
`nextPath`, which holds the string `stale` then. -/
def splitPath (stale pathName : List Char8) : Option (List Char8 × List Char8) :=
  if pathName.head? = some slash then none
  else
    let firDir := pathName.takeWhile (· != slash)
    if firDir.length > maxnamelen then none
    else
      match pathName.dropWhile (· != slash) with
      | [] => some (firDir, stale)
      | _ :: nextPath => some (firDir, nextPath)

/-! ## Their elements -/

lemma cutLast_append (h : slash ∉ b) : cutLast (b ++ slash :: a) = a := by
  induction b with
  | nil => exact if_pos rfl
  | cons x b ih =>
    rw [List.mem_cons, not_or] at h
    rw [List.cons_append, cutLast, if_neg (Ne.symm h.1), ih h.2]

/-- A string with a slash has a last one. -/
lemma exists_last_slash (h : slash ∈ p) : ∃ a b, p = a ++ slash :: b ∧ slash ∉ b := by
  induction p with
  | nil => cases h
  | cons x p ih =>
    by_cases hp : slash ∈ p
    · obtain ⟨a, b, rfl, hb⟩ := ih hp
      exact ⟨x :: a, b, rfl, hb⟩
    · obtain rfl : slash = x := (List.mem_cons.mp h).resolve_right hp
      exact ⟨[], p, rfl, hp⟩

/-- The parent path ends before the last slash. -/
lemma toParentPath_eq (a : List Char8) (h : slash ∉ b) :
    toParentPath (a ++ slash :: b) = if a = [] then [slash] else a := by
  have hcut : (cutLast (a ++ slash :: b).reverse).reverse = a := by
    rw [List.reverse_append, List.reverse_cons, List.append_assoc,
      List.singleton_append, cutLast_append (by simpa using h), List.reverse_reverse]
  unfold toParentPath
  rw [hcut]
  by_cases ha : a = []
  · subst ha
    split
    · next hp => rw [hp, if_pos rfl]
    · rfl
  · rw [if_neg]
    intro he
    cases a with
    | nil => exact ha rfl
    | cons x a => cases a <;> simp at he

/-- **The elements of the parent path** are those before the last slash. -/
theorem pathElems_toParentPath (a : List Char8) (h : slash ∉ b) :
    pathElems (toParentPath (a ++ slash :: b)) = pathElems a := by
  rw [toParentPath_eq a h]
  split
  · next ha =>
    subst ha
    exact pathElems_slash []
  · rfl

lemma head_toParentPath (hp : p.head? = some slash) :
    (toParentPath p).head? = some slash := by
  obtain ⟨a, b, rfl, hb⟩ := exists_last_slash (List.mem_of_mem_head? hp)
  rw [toParentPath_eq a hb]
  split
  · rfl
  · next ha =>
    rwa [List.head?_append_of_ne_nil _ ha] at hp

/-! ## Directories -/

/-- The directory `par` is the parent of `d`; the root is its own parent. -/
def ParentDir (c : Blocks) (par d : FilePtr) : Prop :=
  (par = FilePtr.root ∧ d = FilePtr.root) ∨ InDir c par d

/-- No directory is in itself. -/
lemma not_inDir_self (hc : Consistent c) (hd : Dirent c d) : ¬InDir c d d := by
  induction hd with
  | root => exact fun h => h.ne_root rfl
  | @child d b j hd hb hj ih =>
    intro h
    obtain rfl := hc.inDir_unique (.child hd hb hj) hd h ⟨b, j, hb, hj, rfl⟩
    exact ih h

/-- A directory is its own parent only if it is the root. -/
lemma parentDir_self_iff (hc : Consistent c) (hd : Dirent c d) :
    ParentDir c d d ↔ d = FilePtr.root :=
  ⟨fun h => h.elim And.left fun h => absurd h (not_inDir_self hc hd), fun h => Or.inl ⟨h, h⟩⟩

/-- Paths with the same elements lead to the same file. -/
lemma FoundAt.of_elems (h : FoundAt c p f) (he : pathElems q = pathElems p) : FoundAt c q f := by
  cases h with
  | file hfile htype => exact .file (by rwa [he]) htype
  | link hlink hfound => exact .link (by rwa [linkedPath, he]) hfound

/-- A path leads to one file only. -/
lemma FoundAt.unique (h : FoundAt c p f) (h' : FoundAt c p g) : f = g := by
  induction h with
  | @file p f hfile htype =>
    cases h' with
    | file hfile' _ => exact Option.some.inj (hfile.symm.trans hfile')
    | link hlink _ =>
      rw [linkedPath, hfile, Option.bind_some] at hlink
      exact absurd (target_type hlink) htype
  | @link p t f hlink _ ih =>
    cases h' with
    | file hfile' htype' =>
      rw [linkedPath, hfile', Option.bind_some] at hlink
      exact absurd (target_type hlink) htype'
    | link hlink' hfound' =>
      rw [hlink] at hlink'
      exact ih (Option.some.inj hlink' ▸ hfound')

lemma FoundAt.dirent (h : FoundAt c p f) (h0 : (0 : Char8) ∉ p) : Dirent c f := by
  induction h with
  | @file p f hfile _ =>
    exact (walkOf_isFile (.inl rfl) (isName_pathElems h0) hfile).dirent
  | @link p t f hlink _ ih =>
    obtain ⟨g, -, hg⟩ := Option.bind_eq_some_iff.mp hlink
    exact ih (target_no_zero hg)

/-- The last step of a walk. -/
lemma walkOf_concat {x : Option FilePtr} {e : List Char8}
    (h : (walkOf c x g (elems ++ [e])).file = some f) :
    ∃ par, (walkOf c x g elems).file = some par ∧ wordAt c par.type = ftypeDir ∧
      lookup c par e = some f ∧ (walkOf c x g (elems ++ [e])).dir = some par := by
  induction elems generalizing x g with
  | nil =>
    rw [List.nil_append, walkOf] at h ⊢
    by_cases hlen : e.length ≥ maxnamelen
    · rw [if_pos hlen] at h
      cases h
    rw [if_neg hlen] at h ⊢
    by_cases ht : wordAt c g.type = ftypeDir
    · rw [if_neg (not_not_intro ht)] at h ⊢
      cases hl : lookup c g e with
      | none =>
        rw [hl] at h
        cases h
      | some f' =>
        rw [hl] at h
        cases h
        exact ⟨g, rfl, ht, hl, rfl⟩
    · rw [if_pos ht] at h
      cases h
  | cons name rest ih =>
    rw [List.cons_append, walkOf] at h ⊢
    rw [walkOf]
    by_cases hlen : name.length ≥ maxnamelen
    · rw [if_pos hlen] at h
      cases h
    rw [if_neg hlen] at h ⊢
    rw [if_neg hlen]
    by_cases ht : wordAt c g.type = ftypeDir
    · rw [if_neg (not_not_intro ht)] at h ⊢
      rw [if_neg (not_not_intro ht)]
      cases hl : lookup c g name with
      | none =>
        rw [hl] at h
        simp only [List.append_eq_nil_iff, List.cons_ne_nil, and_false, if_false] at h
        cases h
      | some g' =>
        rw [hl] at h
        exact ih h
    · rw [if_pos ht] at h
      cases h

/-! ## The parent path -/

/-- `walk_path` resolves the path to the file. -/
def WalksTo (s : BlockCache) (path : List Char8) (f : FilePtr) : Prop :=
  ∃ depth w s', walkPath s path depth = .ok (w, s') ∧ w.code = 0 ∧ w.file = some f

/-- A path is resolved to the file that the contents say. -/
lemma CacheInv.walksTo_iff (hs : CacheInv s) (hi : Intact s.content) (hg : HasPages s)
    (h0 : (0 : Char8) ∉ p) : WalksTo s p f ↔ FoundAt s.content p f := by
  constructor
  · rintro ⟨depth, w, s', hwalk, -, hf⟩
    exact (hs.found_of_walkPath hi h0 hwalk).2 f hf
  · intro h
    obtain ⟨depth, w, s', hwalk, hcode, hf, -⟩ := CacheInv.walkPath_found hi h
      (Loads.visits ⟨rfl, fun _ h => h, rfl, rfl⟩ hs) hg h0
    exact ⟨depth, w, s', hwalk, hcode, hf⟩

/-- The path is a link, but in the parent directory of `d`. -/
def LinkBeside (c : Blocks) (p : List Char8) (d : FilePtr) : Prop :=
  ∃ dir, (walkOf c none FilePtr.root (pathElems p)).dir = some dir ∧ ParentDir c dir d

/-- A path that ends with a slash: the parent path has the same elements. -/
lemma foundAt_toParentPath_slash (hd : FoundAt c (a ++ [slash]) d) :
    FoundAt c (toParentPath (a ++ [slash])) par ↔ par = d := by
  have he : pathElems (toParentPath (a ++ [slash])) = pathElems (a ++ [slash]) := by
    rw [pathElems_toParentPath a List.not_mem_nil, pathElems_append]
    exact (List.append_nil _).symm
  constructor
  · exact fun h => (h.of_elems he.symm).unique hd
  · rintro rfl
    exact hd.of_elems he

/-- A path that does not end with a slash: the parent path leads to the directory in which the last
element is looked up. -/
lemma foundAt_toParentPath_name (hb : slash ∉ b) (hne : b ≠ [])
    (hd : FoundAt c (a ++ slash :: b) d) :
    ∃ par, (walkOf c none FilePtr.root (pathElems (a ++ slash :: b))).dir = some par ∧
      (∀ g, FoundAt c (toParentPath (a ++ slash :: b)) g ↔ g = par) ∧
      (linkedPath c (a ++ slash :: b) = none → InDir c par d) := by
  have helems : pathElems (a ++ slash :: b) = pathElems a ++ [b] := by
    rw [pathElems_append, pathElems_of_no_slash hb hne]
  obtain ⟨f, hfile, hlink⟩ : ∃ f,
      (walkOf c none FilePtr.root (pathElems (a ++ slash :: b))).file = some f ∧
        (linkedPath c (a ++ slash :: b) = none → f = d) := by
    cases hd with
    | file hfile _ => exact ⟨d, hfile, fun _ => rfl⟩
    | link hlink _ =>
      obtain ⟨f, hfile, -⟩ := Option.bind_eq_some_iff.mp hlink
      exact ⟨f, hfile, fun h => absurd (hlink.symm.trans h) (Option.some_ne_none _)⟩
  rw [helems] at hfile ⊢
  obtain ⟨par, hpar, ht, hl, hdir⟩ := walkOf_concat hfile
  have hfound : FoundAt c (toParentPath (a ++ slash :: b)) par :=
    .file (by rwa [pathElems_toParentPath a hb]) (by rw [ht]; decide)
  refine ⟨par, hdir, fun g => ⟨fun h => h.unique hfound, fun h => h ▸ hfound⟩, fun hno => ?_⟩
  obtain rfl := hlink hno
  exact (lookupFrom_dirent ht (by omega) hl).1

/-- **The parent path**, for the contents of the blocks. -/
lemma foundAt_toParentPath_iff (hc : Consistent c) (hp : p.head? = some slash)
    (h0 : (0 : Char8) ∉ p) (hd : FoundAt c p d) :
    (∃ par, FoundAt c (toParentPath p) par ∧ ParentDir c par d) ↔
      (p.getLast? ≠ some slash ∧ (linkedPath c p = none ∨ LinkBeside c p d)) ∨
      (p.getLast? = some slash ∧ d = FilePtr.root) := by
  obtain ⟨a, b, rfl, hb⟩ := exists_last_slash (List.mem_of_mem_head? hp)
  by_cases hne : b = []
  · subst hne
    have hlast : (a ++ [slash]).getLast? = some slash := List.getLast?_concat
    simp only [foundAt_toParentPath_slash hd, exists_eq_left, hlast, ne_eq, not_true_eq_false,
      false_and, true_and, false_or]
    exact parentDir_self_iff hc (hd.dirent h0)
  · have hlast : (a ++ slash :: b).getLast? ≠ some slash := by
      intro h
      rw [List.getLast?_append_of_ne_nil _ (List.cons_ne_nil _ _), List.getLast?_cons_of_ne_nil hne] at h
      exact hb (List.mem_of_getLast? h)
    obtain ⟨par, hdir, hfound, hin⟩ := foundAt_toParentPath_name hb hne hd
    simp only [hfound, exists_eq_left, hlast, ne_eq, not_false_eq_true, true_and, false_and,
      or_false]
    constructor
    · exact fun h => .inr ⟨par, hdir, h⟩
    · rintro (hno | ⟨dir, hdir', h⟩)
      · exact .inr (hin hno)
      · exact Option.some.inj (hdir.symm.trans hdir') ▸ h

/-- A path without null characters has a parent path without. -/
lemma toParentPath_no_zero (hp : p.head? = some slash) (h0 : (0 : Char8) ∉ p) :
    (0 : Char8) ∉ toParentPath p := by
  obtain ⟨a, b, rfl, hb⟩ := exists_last_slash (List.mem_of_mem_head? hp)
  rw [toParentPath_eq a hb]
  split
  · decide
  · exact fun h => h0 (List.mem_append_left _ h)

/-- **The parent path.** For a path that is resolved to a directory, the path that `toParentPath` makes
is resolved to the parent directory exactly if the path does not end with a slash and is no link (or
a link in that parent directory), or is a path of the root. -/
theorem toParentPath_parent_iff (hs : CacheInv s) (hi : Intact s.content) (hg : HasPages s)
    (hp : p.head? = some slash) (h0 : (0 : Char8) ∉ p) (hd : WalksTo s p d) :
    ((toParentPath p).head? = some slash ∧
      ∃ par, WalksTo s (toParentPath p) par ∧ ParentDir s.content par d) ↔
      (p.getLast? ≠ some slash ∧ (linkedPath s.content p = none ∨ LinkBeside s.content p d)) ∨
      (p.getLast? = some slash ∧ d = FilePtr.root) := by
  rw [hs.walksTo_iff hi hg h0] at hd
  simp only [hs.walksTo_iff hi hg (toParentPath_no_zero hp h0), head_toParentPath hp, true_and]
  exact foundAt_toParentPath_iff hs.consistent hp h0 hd

/-! ## A directory in the root -/

/-- The blocks of an image with an empty directory `d` in the root (block 3). -/
def dirBlocks : Blocks := fun b i =>
  if b = 1 then
    if i = 0 then fsMagic else if i = 1 then 1024 else if i = 2 then 0x2F
    else if i = 34 then 4096 else if i = 35 then ftypeDir else if i = 36 then 3 else 0
  else if b = 2 then if i = 0 then 0xFFFFFFF0 else if i < 32 then 0xFFFFFFFF else 0
  else if b = 3 then if i = 0 then 0x64 else if i = 33 then ftypeDir else 0
  else 0

/-- The image in the cache. -/
def dirDisk : BlockCache where
  mem := dirBlocks
  mapped := fun b => decide (b < 4)
  dirty := fun _ => false
  disk := dirBlocks
  super := true
  bitmap := true
  grants := fun _ => true

lemma dirDisk_content : dirDisk.content = dirBlocks := by
  funext b
  unfold BlockCache.content
  split_ifs
  · rfl
  · rfl

/-- The structures in the image hold the block of the root and no other. -/
lemma dirBlocks_dirent (hf : Dirent dirBlocks f) :
    (f = FilePtr.root ∨ ∃ j < 16, f = FilePtr.entry 3 j) ∧
      ∀ q v, Holds dirBlocks f q v → f = FilePtr.root ∧ q = .data 0 ∧ v = 3 := by
  have hroot : ∀ q v, Holds dirBlocks FilePtr.root q v → q = .data 0 ∧ v = 3 := by
    intro q v hold
    obtain ⟨i, hi, rfl, hne, hv⟩ := holds_direct (by decide) hold
    have hdirect : ∀ i < 10, wordAt dirBlocks (FilePtr.root.direct i) = if i = 0 then 3 else 0 := by
      decide
    rw [hdirect i hi] at hne hv
    split_ifs at hne hv with h0
    · exact ⟨by rw [h0], hv.symm⟩
    · exact absurd rfl hne
  have hentry : ∀ j < 16, ∀ q v, ¬Holds dirBlocks (FilePtr.entry 3 j) q v := by
    intro j hj q v hold
    have hindirect : ∀ j < 16, wordAt dirBlocks (FilePtr.entry 3 j).indirect = 0 := by decide
    have hdirect : ∀ j < 16, ∀ i < 10, wordAt dirBlocks ((FilePtr.entry 3 j).direct i) = 0 := by
      decide
    obtain ⟨i, hi, -, hne, -⟩ := holds_direct (hindirect j hj) hold
    exact hne (hdirect j hj i hi)
  have hcases : f = FilePtr.root ∨ ∃ j < 16, f = FilePtr.entry 3 j := by
    induction hf with
    | root => exact .inl rfl
    | @child d b j hd hb hj ih =>
      obtain ⟨-, i, -, hold⟩ := hb
      rcases ih with rfl | ⟨l, hl, rfl⟩
      · exact .inr ⟨j, hj, by rw [(hroot _ _ hold).2]⟩
      · exact absurd hold (hentry l hl _ _)
  refine ⟨hcases, fun q v hold => ?_⟩
  rcases hcases with rfl | ⟨j, hj, rfl⟩
  · exact ⟨rfl, hroot q v hold⟩
  · exact absurd hold (hentry j hj q v)

lemma dirBlocks_consistent : Consistent dirBlocks where
  usable := fun hf hold => by
    obtain ⟨-, -, rfl⟩ := (dirBlocks_dirent hf).2 _ _ hold
    exact ⟨by decide, by decide, fun h => absurd h.2 (by decide)⟩
  once := fun hf hg hp hq => by
    obtain ⟨rfl, rfl, -⟩ := (dirBlocks_dirent hf).2 _ _ hp
    obtain ⟨rfl, rfl, -⟩ := (dirBlocks_dirent hg).2 _ _ hq
    exact ⟨rfl, rfl⟩
  reserved := fun b hb hfree => by
    have hlt : b < 3 := hb
    have hused : ∀ b < 3, Bitmap.test (bitsOf dirBlocks) b = false := by decide
    exact absurd ((hused b hlt).symm.trans hfree.2) Bool.false_ne_true

lemma dirDisk_inv : CacheInv dirDisk where
  super := rfl
  bitmap := rfl
  map := fun b _ hlt => by
    rw [dirDisk_content] at hlt
    have hlt : b < 3 := hlt
    exact decide_eq_true (by omega : b < 4)
  consistent := dirDisk_content ▸ dirBlocks_consistent

/-- The image is intact. -/
lemma dirDisk_intact : Intact dirDisk.content := by
  rw [dirDisk_content]
  refine ⟨by decide, fun d hd ht i hi => ?_, fun f hf ht => ?_⟩
  · rcases (dirBlocks_dirent hd.dirent).1 with rfl | ⟨j, hj, rfl⟩
    · obtain rfl : i = 0 := by
        have hsize : sizeBlocksOf dirBlocks FilePtr.root = 1 := by decide
        omega
      exact ⟨3, by decide, by decide, by decide⟩
    · have hsize : ∀ j < 16, sizeBlocksOf dirBlocks (FilePtr.entry 3 j) = 0 := by decide
      have := hsize j hj
      omega
  · rcases (dirBlocks_dirent hf.dirent).1 with rfl | ⟨j, hj, rfl⟩
    · exact absurd ht (by decide)
    · have htype : ∀ j < 16, wordAt dirBlocks (FilePtr.entry 3 j).type ≠ ftypeLnk := by decide
      exact absurd ht (htype j hj)

/-- The path `/d/` is resolved to the directory. -/
lemma walksTo_dir : WalksTo dirDisk [0x2F, 0x64, 0x2F] (FilePtr.entry 3 0) :=
  ⟨1, _, _, rfl, rfl, rfl⟩

/-- The parent path of `/d` is resolved to its parent, that of `/d/` is not. -/
theorem toParentPath_parent_iff_slash :
    ((toParentPath [0x2F, 0x64]).head? = some slash ∧
      ∃ par, WalksTo dirDisk (toParentPath [0x2F, 0x64]) par ∧
        ParentDir dirDisk.content par (FilePtr.entry 3 0)) ∧
    ¬((toParentPath [0x2F, 0x64, 0x2F]).head? = some slash ∧
      ∃ par, WalksTo dirDisk (toParentPath [0x2F, 0x64, 0x2F]) par ∧
        ParentDir dirDisk.content par (FilePtr.entry 3 0)) := by
  have hd : WalksTo dirDisk [0x2F, 0x64] (FilePtr.entry 3 0) := ⟨1, _, _, rfl, rfl, rfl⟩
  constructor
  · refine (toParentPath_parent_iff dirDisk_inv dirDisk_intact (fun _ => rfl) rfl (by decide) hd).mpr ?_
    exact Or.inl ⟨by decide, Or.inl (by rw [dirDisk_content]; decide)⟩
  · rw [toParentPath_parent_iff dirDisk_inv dirDisk_intact (fun _ => rfl) rfl (by decide) walksTo_dir]
    rintro (⟨h, -⟩ | ⟨-, h⟩)
    · exact h rfl
    · exact absurd h (by decide)

/-- **A directory as its own parent**: the parent path of `/d/` is `/d`. -/
theorem toParentPath_own_parent : ¬ ∀ s p d, CacheInv s → Intact s.content → HasPages s →
    p.head? = some slash → (0 : Char8) ∉ p → WalksTo s p d → wordAt s.content d.type = ftypeDir →
    (toParentPath p).head? = some slash ∧
      ∃ par, WalksTo s (toParentPath p) par ∧ ParentDir s.content par d := by
  intro h
  obtain ⟨-, par, hpar, hparent⟩ := h dirDisk [0x2F, 0x64, 0x2F] (FilePtr.entry 3 0) dirDisk_inv
    dirDisk_intact (fun _ => rfl) rfl (by decide) walksTo_dir (by rw [dirDisk_content]; decide)
  rw [dirDisk_inv.walksTo_iff dirDisk_intact (fun _ => rfl) (by decide)] at hpar
  have hd := (dirDisk_inv.walksTo_iff dirDisk_intact (fun _ => rfl) (by decide)).mp walksTo_dir
  obtain rfl := (foundAt_toParentPath_slash (a := [0x2F, 0x64]) hd).mp hpar
  have hroot := (parentDir_self_iff dirDisk_inv.consistent (hd.dirent (by decide))).mp hparent
  exact absurd hroot (by decide)

end MosVolca
