import MosVolca.Fs.NewFiles
import MosVolca.Fs.Replies

/-!
# What `serve_open` answers

`serve_open` looks the path up, makes the file if it is missing, and answers. It should answer with
the file that is at the path afterwards, or with an error that leaves the structures of files as they
were. It goes on after an error of `open_alloc`, it follows a link to no file, and it uses `f` after
`file_create` has failed; and a directory without room has become bigger when `file_create` fails.

## Main definitions

* `MosVolca.FoundAt` — the file that a path leads to, along links.
* `MosVolca.InOrder` — a file system in order.
* `MosVolca.MakesClean` — no old data where a directory grows for a new file.
* `MosVolca.OpenAnswers` — the answer that `serve_open` should give.
* `MosVolca.CanOpen` — the paths that get it.

## Main results

* `MosVolca.serveOpen_answers_iff` — when `serve_open` gives that answer.
* `MosVolca.serveOpen_mkdir_fails` — a directory in a missing directory.
-/

namespace MosVolca

variable {c c' : Blocks} {s s' s1 : BlockCache} {f g d dir : FilePtr} {b i n depth : ℕ}
  {name path : List Char8} {elems xs : List (List Char8)} {r : Word} {w : Walk}

/-- **The file that a path leads to**, along links. -/
inductive FoundAt (c : Blocks) : List Char8 → FilePtr → Prop
  | file {path : List Char8} {f : FilePtr}
      (hfile : (walkOf c none FilePtr.root (pathElems path)).file = some f)
      (htype : wordAt c f.type ≠ ftypeLnk) : FoundAt c path f
  | link {path t : List Char8} {f : FilePtr} (hlink : linkedPath c path = some t)
      (hfound : FoundAt c t f) : FoundAt c path f

/-- What a path leads to along links is no link. -/
lemma FoundAt.type_ne (h : FoundAt c path f) : wordAt c f.type ≠ ftypeLnk := by
  induction h with
  | file _ htype => exact htype
  | link _ _ ih => exact ih

/-- A path leads to the same file in contents with the same walks and links. -/
lemma FoundAt.congr (hwalk : ∀ q, (0 : Char8) ∉ q →
      walkOf c' none FilePtr.root (pathElems q) = walkOf c none FilePtr.root (pathElems q))
    (hlink : ∀ q, (0 : Char8) ∉ q → linkedPath c' q = linkedPath c q)
    (htype : ∀ g, IsFile c g → wordAt c' g.type = wordAt c g.type) (hp : (0 : Char8) ∉ path)
    (h : FoundAt c path f) : FoundAt c' path f := by
  induction h with
  | @file path f hfile ht =>
    have hf := walkOf_isFile (.inl rfl) (isName_pathElems hp) hfile
    exact .file (by rw [hwalk path hp, hfile]) (by rwa [htype f hf])
  | @link path t f hl _ ih =>
    obtain ⟨f', -, hf'⟩ := Option.bind_eq_some_iff.mp hl
    exact .link (by rw [hlink path hp, hl]) (ih (target_no_zero hf'))

/-- A path leads to the same file after walks. -/
lemma Intact.foundAt_iff (hi : Intact s.content) (hv : Visits s s') (hp : (0 : Char8) ∉ path) :
    FoundAt s'.content path f ↔ FoundAt s.content path f := by
  have hwalk : ∀ q, (0 : Char8) ∉ q → walkOf s'.content none FilePtr.root (pathElems q) =
      walkOf s.content none FilePtr.root (pathElems q) := fun q hq =>
    hv.browses.walkOf (.inl rfl) (isName_pathElems hq)
  have hlink : ∀ q, (0 : Char8) ∉ q → linkedPath s'.content q = linkedPath s.content q :=
    fun q hq => hi.linkedPath_eq hv hq
  refine ⟨FoundAt.congr (fun q hq => (hwalk q hq).symm) (fun q hq => (hlink q hq).symm)
    (fun g hg => ?_) hp, FoundAt.congr hwalk hlink (fun g hg => ?_) hp⟩
  · exact (hv.browses.type (hv.isFile_iff.mp hg).dirent).symm
  · exact hv.browses.type hg.dirent

/-! ## Walks that keep the room -/

namespace CacheInv

/-- Walks that make no blocks leave the bitmap. -/
theorem looks_isFree (hs : CacheInv s) (h : Looks s s') : IsFree s'.content b ↔ IsFree s.content b := by
  induction h with
  | refl => rfl
  | read _ hread ih =>
    rw [(readBlock_loads hread).1.content]
    exact ih
  | @dir t f r hl hf hm ih =>
    have hcon : (t.store f.dir r).content = putWord t.content (placeOf t.content f (.head 45)) r :=
      content_store (p := f.dir) hm
    rw [hcon, ← ih]
    exact (sameMap_putWord ((hs.looks hl).1.inv.consistent.outside_placeOf hf
      (x := .head 45) (by decide : 45 < 64))).isFree_iff

end CacheInv

/-- The structure that a new file gets is of the type of a link. -/
def OldLink (c : Blocks) (d : FilePtr) : Prop :=
  ∃ g, spare c d = some g ∧ wordAt c g.type = ftypeLnk

/-- A file system in order: the cache is consistent, the directories have all their blocks and the links
a string, and the kernel has pages. -/
structure InOrder (s : BlockCache) : Prop where
  inv : CacheInv s
  intact : Intact s.content
  pages : HasPages s

namespace InOrder

lemma of_looks (h : InOrder s) (hl : Looks s s') (hg : HasPages s') : InOrder s' :=
  have hv := (h.inv.looks hl).1
  ⟨hv.inv, h.intact.of_visits hv, hg⟩

lemma wholeDir (h : InOrder s) (hd : IsFile s.content d) (hm : s.mapped d.block = true)
    (ht : wordAt s.content d.type = ftypeDir) : WholeDir s d :=
  ⟨h.inv, h.pages, h.intact.small, hd.dirent, hm, ht, h.intact.whole d hd ht⟩

/-- The walks keep the first structure without a name. -/
lemma spare_eq (h : InOrder s) (hl : Looks s s') (hd : IsFile s.content d)
    (ht : wordAt s.content d.type = ftypeDir) : spare s'.content d = spare s.content d := by
  have hv := (h.inv.looks hl).1
  have hag := hv.same.agrees d hd.dirent
  have hsize := hv.browses.size hd.dirent
  have hblocks : ∀ k < sizeBlocksOf s.content d, ∃ b, blockOf s.content d k = some b ∧
      blockOf s'.content d k = some b ∧ ∀ j < file2blk,
        (HasName s'.content (FilePtr.entry b j) [] ↔ HasName s.content (FilePtr.entry b j) []) := by
    intro k hk
    obtain ⟨b, hold⟩ := h.intact.whole d hd ht k hk
    exact ⟨b, blockOf_eq_some.mpr hold, blockOf_eq_some.mpr (hag.holds_iff.mpr hold), fun j hj =>
      hv.browses.hasName_iff (CacheInv.dirent_entry hd.dirent ht hk hold hj) (by decide)⟩
  refine Option.ext fun f => ⟨lookupFrom_mono hsize.le fun k _ hk => ?_,
    lookupFrom_mono hsize.ge fun k _ hk => ?_⟩
  · obtain ⟨b, hb, hb', hn⟩ := hblocks k (by omega)
    exact ⟨b, hb', hb, fun j hj => (hn j hj).symm⟩
  · exact hblocks k (by omega)

/-- The walks keep the room, and the type of a structure without a name. -/
lemma room_iff (h : InOrder s) (hl : Looks s s') (hd : IsFile s.content d)
    (ht : wordAt s.content d.type = ftypeDir) : (Room s'.content d ↔ Room s.content d) ∧
      (OldLink s'.content d ↔ OldLink s.content d) := by
  have hv := (h.inv.looks hl).1
  have hag := hv.same.agrees d hd.dirent
  have hsize := hv.browses.size hd.dirent
  have hspare := h.spare_eq hl hd ht
  constructor
  · unfold Room CanGrow
    rw [hsize, hag.indirect, hspare]
    simp only [h.inv.looks_isFree hl, hag.holds_iff]
  · unfold OldLink
    rw [hspare]
    refine exists_congr fun g => and_congr_right fun hg => ?_
    obtain ⟨⟨b, j, hb, hj, rfl⟩, -⟩ := lookupFrom_dirent ht (by omega) hg
    rw [hv.browses.type (.child hd.dirent hb hj)]

end InOrder

/-! ## Walks -/

/-- A size that grows by a block is another one. -/
lemma ne_add_4096 (v : Word) : v ≠ v + 4096 := by
  intro h
  have h : v.toNat = (v.toNat + 4096) % 2 ^ 32 :=
    (congrArg BitVec.toNat h).trans (BitVec.toNat_add v 4096)
  have := v.isLt
  omega

/-- Names that lead to a file give no error. -/
lemma walkOf_code {d : Option FilePtr} (h : (walkOf c d f elems).file = some g) :
    (walkOf c d f elems).code = 0 := by
  induction elems generalizing d f with
  | nil => rfl
  | cons name rest ih =>
    rw [walkOf] at h ⊢
    cases hl : lookup c f name with
    | none =>
      rw [hl] at h
      simp only at h
      split_ifs at h
    | some g' =>
      rw [hl] at h
      simp only at h ⊢
      split_ifs at h ⊢
      exact ih h

/-- Names that lead to no file give an error. -/
lemma walkOf_file_none {d : Option FilePtr} (h : (walkOf c d f elems).file = none) :
    (walkOf c d f elems).code.slt 0 = true := by
  induction elems generalizing d f with
  | nil => cases h
  | cons name rest ih =>
    rw [walkOf] at h ⊢
    cases hl : lookup c f name with
    | none =>
      simp only
      split_ifs
      all_goals rfl
    | some g' =>
      rw [hl] at h
      simp only at h ⊢
      split_ifs at h ⊢
      · decide
      · decide
      · exact ih h

namespace CacheInv

/-- A path that names no file: the walk leaves behind what the contents say. -/
lemma walkPath_missing (hs : CacheInv s) (hi : Intact s.content) (hg : HasPages s)
    (hp : (0 : Char8) ∉ path)
    (hcode : (walkOf s.content none FilePtr.root (pathElems path)).code ≠ 0) :
    ∃ s', (∀ depth, MosVolca.walkPath s path (depth + 1) =
        .ok (walkOf s.content none FilePtr.root (pathElems path), s')) ∧ Looks s s' ∧ HasPages s' ∧
      ∀ d, (walkOf s.content none FilePtr.root (pathElems path)).dir = some d →
        s'.mapped d.block = true := by
  have hnames := isName_pathElems hp
  obtain ⟨x, s1, helems, hg1⟩ :=
    hs.walkElems_granted (d := none) hg hi.small hi.whole (.inl rfl) hs.root.mapped hnames
  obtain ⟨hl, rfl, -, hdir⟩ := hs.walkElems_held hi.whole (.inl rfl) hs.root.mapped hnames helems
  refine ⟨s1, fun depth => ?_, hl, hg1, fun d hd => hdir d hcode hd⟩
  rw [MosVolca.walkPath, helems]
  simp only [ok_bind]
  cases hfile : (walkOf s.content none FilePtr.root (pathElems path)).file with
  | none => rfl
  | some f => exact absurd (walkOf_code hfile) hcode

/-- A path that leads to a file: the walk returns it. -/
lemma walkPath_found (hi : Intact s.content) (h : FoundAt s.content path f)
    (hv : Visits s s1) (hg : HasPages s1) (hp : (0 : Char8) ∉ path) :
    ∃ depth w s', MosVolca.walkPath s1 path depth = .ok (w, s') ∧ w.code = 0 ∧ w.file = some f ∧
      Looks s1 s' ∧ s'.mapped f.block = true := by
  induction h generalizing s1 with
  | @file path f hfile ht =>
    have hnames := isName_pathElems hp
    have hi1 := hi.of_visits hv
    obtain ⟨x, s2, helems, -⟩ :=
      hv.inv.walkElems_granted (d := none) hg hi1.small hi1.whole (.inl rfl) hv.inv.root.mapped hnames
    obtain ⟨hl, hx, hmap, -⟩ :=
      hv.inv.walkElems_held hi1.whole (.inl rfl) hv.inv.root.mapped hnames helems
    have hv2 := hl.visits hv.inv
    rw [hv.browses.walkOf (.inl rfl) hnames] at hx
    have hxf : x.file = some f := by rw [hx, hfile]
    have hisfile := walkOf_isFile (.inl rfl) hnames hfile
    have htype : s2.load f.type ≠ ftypeLnk := by
      rw [load_eq (p := f.type) (hmap f hxf), (hv.trans hv2).browses.type hisfile.dirent]
      exact ht
    refine ⟨1, x, s2, ?_, by rw [hx]; exact walkOf_code hfile, hxf, hl, hmap f hxf⟩
    rw [MosVolca.walkPath, helems]
    simp only [ok_bind, hxf]
    exact if_neg htype
  | @link path t f hl _ ih =>
    have hnames := isName_pathElems hp
    have hi1 := hi.of_visits hv
    obtain ⟨x, s2, helems, hg2⟩ :=
      hv.inv.walkElems_granted (d := none) hg hi1.small hi1.whole (.inl rfl) hv.inv.root.mapped hnames
    obtain ⟨hlook, hx, -⟩ :=
      hv.inv.walkElems_held hi1.whole (.inl rfl) hv.inv.root.mapped hnames helems
    have hv2 := hlook.visits hv.inv
    rw [hv.browses.walkOf (.inl rfl) hnames] at hx
    have hl1 : linkedPath s1.content path = some t := (hi.linkedPath_eq hv hp).trans hl
    obtain ⟨f', hfile, hlnk, hu, hstr⟩ := hv.inv.block_of_linkedPath hi1 hp helems hl1
    obtain ⟨isnew, s3, hread, hg3⟩ := hv2.inv.readBlock_granted hg2 (hi1.of_visits hv2).small hu
    have hv3 := (hv.trans hv2).trans ((readBlock_loads hread).1.visits hv2.inv)
    obtain ⟨g, hgfile, hg'⟩ := Option.bind_eq_some_iff.mp hl
    obtain ⟨depth, y, s4, hwalk, -, hyf, hlooks, hmapped⟩ := ih hv3 hg3 (target_no_zero hg')
    refine ⟨depth + 1, { x with file := y.file }, s4, ?_, ?_, hyf, ?_, hmapped⟩
    · rw [MosVolca.walkPath, helems]
      simp only [ok_bind, hfile]
      rw [if_pos hlnk, hread]
      simp only [ok_bind, hstr isnew s3 hread, hwalk]
      rfl
    · show x.code = 0
      rw [hx]
      exact walkOf_code hgfile
    · exact (hlook.read hread).trans hlooks

/-- What a walk returns: an error only where the names lead to no file, and a file only if the path
leads to it. -/
lemma found_of_walkPath (hs : CacheInv s) (hi : Intact s.content) (hp : (0 : Char8) ∉ path)
    (h : MosVolca.walkPath s path depth = .ok (w, s')) :
    w.code = (walkOf s.content none FilePtr.root (pathElems path)).code ∧
      ∀ f, w.file = some f → FoundAt s.content path f := by
  induction depth generalizing s path w s' with
  | zero => cases h
  | succ depth ih =>
    have hnames := isName_pathElems hp
    rw [MosVolca.walkPath] at h
    obtain ⟨⟨x, s1⟩, helems, h1⟩ := bind_eq_ok.mp h
    obtain ⟨hv, hx, hmap⟩ := hs.walkElems_whole hi.whole (.inl rfl) hs.root.mapped hnames helems
    cases hfile : x.file with
    | none =>
      simp only [hfile] at h1
      cases h1
      refine ⟨by rw [hx], fun f hf => ?_⟩
      rw [hfile] at hf
      cases hf
    | some f =>
      simp only [hfile] at h1
      have hfile' : (walkOf s.content none FilePtr.root (pathElems path)).file = some f := hx ▸ hfile
      have hf := walkOf_isFile (.inl rfl) hnames hfile'
      have htype : s1.load f.type = wordAt s.content f.type := by
        rw [load_eq (p := f.type) (hmap f hfile), hv.browses.type hf.dirent]
      by_cases hlnk : s1.load f.type = ftypeLnk
      · rw [if_pos hlnk] at h1
        obtain ⟨⟨isnew, s2⟩, hread, h2⟩ := bind_eq_ok.mp h1
        obtain ⟨-, t, ht⟩ := hi.link f hf (htype ▸ hlnk)
        have hl : linkedPath s.content path = some t := by
          unfold linkedPath
          rw [hfile', Option.bind_some, ht]
        obtain ⟨g, hg, -, -, hstr⟩ := hs.block_of_linkedPath hi hp helems hl
        obtain rfl := Option.some.inj (hg.symm.trans hfile)
        simp only [hstr isnew s2 hread] at h2
        obtain ⟨⟨y, s3⟩, hwalk, h3⟩ := bind_eq_ok.mp h2
        cases h3
        have hv2 := hv.trans ((readBlock_loads hread).1.visits hv.inv)
        obtain ⟨-, hfound⟩ := ih hv2.inv (hi.of_visits hv2) (target_no_zero ht) hwalk
        exact ⟨by rw [hx], fun f' hf' =>
          .link hl ((hi.foundAt_iff hv2 (target_no_zero ht)).mp (hfound f' hf'))⟩
      · rw [if_neg hlnk] at h1
        cases h1
        refine ⟨by rw [hx], fun f' hf' => ?_⟩
        obtain rfl := Option.some.inj (hf'.symm.trans hfile)
        exact .file hfile' (htype ▸ hlnk)

end CacheInv

/-! ## Creations -/

/-- What `file_create` needs where it makes a file: the block by which the directory grows, and the
indirect block for it, hold no old data. -/
def NewFileClean (c : BlockCache) (depth : ℕ) (path : List Char8) : Prop :=
  ∀ w c1 dir, walkPath c path depth = .ok (w, c1) → w.code = -eNotFound → w.dir = some dir →
    AllocFileClean c1 dir (c1.sizeBlocks dir) 0

/-- What `serve_open` needs where it makes a file. -/
def MakesClean (c : BlockCache) (path : List Char8) (omode : Word) : Prop :=
  omode &&& oCreat ≠ 0 ∨ omode &&& oMkdir ≠ 0 → ∀ depth r f c1,
    fileOpen c depth path = .ok (r, f, c1) → r.slt 0 = true → NewFileClean c1 depth path

namespace InOrder

/-- **The new file is at the path**, if it is no link and as a directory. -/
theorem newFile (h : InOrder s) (hp : (0 : Char8) ∉ path)
    (hcode : (walkOf s.content none FilePtr.root (pathElems path)).code ≠ 0)
    (hdir : (walkOf s.content none FilePtr.root (pathElems path)).dir = some dir)
    (hm : s.mapped dir.block = true) (hclean : AllocFileClean s dir (s.sizeBlocks dir) 0)
    (halloc : dirAllocFile s dir = .ok (.ok f, s'))
    (hname : name = (walkOf s.content none FilePtr.root (pathElems path)).lastelem) :
    (s'.setName f name).mapped f.block = true ∧
      (wordAt (s'.setName f name).content f.type = ftypeLnk ↔ OldLink s.content dir) ∧
      (wordAt (s'.setName f name).content f.type ≠ ftypeLnk →
        FoundAt (s'.setName f name).content path f) ∧
      FoundAt ((s'.setName f name).store f.type ftypeDir).content path f := by
  obtain ⟨xs, helems, hfile, hmissing, ht, hlen, -⟩ := walkOf_missing hcode hdir
  rw [← hname] at helems hmissing hlen
  have hnames := isName_pathElems hp
  have hlast : IsName name := hnames name (helems ▸ List.mem_append_right _ (List.mem_singleton_self _))
  have hxs : ∀ e ∈ xs, IsName e := fun e he => hnames e (helems ▸ List.mem_append_left _ he)
  have hd := walkOf_isFile (.inl rfl) hxs hfile
  have hno := not_mem_namesOf hmissing
  have hw := h.wholeDir hd hm ht
  obtain ⟨hnew, hs1, ⟨hf1, hfm⟩, hnot, hkeep, htype⟩ := hw.newFile hd hclean halloc hlast hlen hno
  have hnew' := hnew.setType (w := ftypeDir) hs1.consistent hnot hf1 (hkeep dir hd.dirent) hd hkeep hlen
  refine ⟨hfm, ?_, fun hlnk => .file ?_ hlnk, ?_⟩
  · rw [htype]
    exact ((hw.dirAllocFile_cases hclean halloc).1 f rfl).2
  · rw [helems]
    exact hnew.walkOf h.intact.whole hlast hno hlen ht (.inl rfl) hxs hfile
  · rw [content_store (p := f.type) hfm]
    refine .file ?_ ?_
    · rw [helems]
      exact hnew'.walkOf h.intact.whole hlast hno hlen ht (.inl rfl) hxs hfile
    · rw [wordAt_putWord_self]
      decide

/-- The walks of a path that names no file, and the state after them. -/
lemma walk_missing (h : InOrder s) (hp : (0 : Char8) ∉ path)
    (hw : walkOf s.content none FilePtr.root (pathElems path) = w) (hcode : w.code ≠ 0) :
    ∃ s', (∀ depth, walkPath s path (depth + 1) = .ok (w, s')) ∧ Looks s s' ∧ InOrder s' ∧
      walkOf s'.content none FilePtr.root (pathElems path) = w ∧
      ∀ d, w.dir = some d → s'.mapped d.block = true ∧ IsFile s.content d ∧
        wordAt s.content d.type = ftypeDir ∧ w.code = -eNotFound := by
  have hnames := isName_pathElems hp
  rw [← hw] at hcode ⊢
  obtain ⟨s', hwalk, hl, hg, hm⟩ := h.inv.walkPath_missing h.intact h.pages hp hcode
  refine ⟨s', hwalk, hl, h.of_looks hl hg, (h.inv.looks hl).1.browses.walkOf (.inl rfl) hnames,
    fun d hd => ⟨hm d hd, ?_⟩⟩
  obtain ⟨xs, helems, hfile, -, ht, -, hnot⟩ := walkOf_missing hcode hd
  exact ⟨walkOf_isFile (.inl rfl) (fun e he => hnames e (helems ▸ List.mem_append_left _ he)) hfile,
    ht, hnot⟩

/-- A path whose file is missing, beside a structure without a name: nothing is asked. -/
lemma newFileClean (h : InOrder s) (hp : (0 : Char8) ∉ path)
    (hw : walkOf s.content none FilePtr.root (pathElems path) = w) (hcode : w.code ≠ 0)
    (hspare : ∀ d, w.dir = some d → ∃ f, spare s.content d = some f) : NewFileClean s depth path := by
  intro w' s1 dir hwalk _ hdir
  obtain ⟨s2, hwalk', hl, h1, -, hd⟩ := h.walk_missing hp hw hcode
  cases depth with
  | zero => cases hwalk
  | succ depth =>
    cases (hwalk' depth).symm.trans hwalk
    obtain ⟨hm, hd, ht, -⟩ := hd dir hdir
    obtain ⟨f, hf⟩ := hspare dir hdir
    have hv := (h.inv.looks hl).1
    have ht1 := (hv.browses.type hd.dirent).trans ht
    rw [CacheInv.sizeBlocks_eq hm]
    exact (h1.wholeDir (hv.isFile_iff.mpr hd) hm ht1).allocFromClean (by omega)
      ((h.spare_eq hl hd ht).trans hf)

/-- The same for `serve_open`. -/
lemma makesClean {omode : Word} (h : InOrder s) (hp : (0 : Char8) ∉ path)
    (hw : walkOf s.content none FilePtr.root (pathElems path) = w) (hcode : w.code ≠ 0)
    (hspare : ∀ d, w.dir = some d → ∃ f, spare s.content d = some f) : MakesClean s path omode := by
  intro _ depth r f c1 hopen _
  obtain ⟨s1, hwalk, hl, h1, hw1, hd⟩ := h.walk_missing hp hw hcode
  unfold fileOpen at hopen
  cases depth with
  | zero => cases hopen
  | succ depth =>
    rw [hwalk depth] at hopen
    cases hopen
    refine h1.newFileClean hp hw1 hcode fun d hdir => ?_
    obtain ⟨-, hd, ht, -⟩ := hd d hdir
    rw [h.spare_eq hl hd ht]
    exact hspare d hdir

/-- `file_create` where the directory is missing. -/
lemma fileCreate_no_dir (h : InOrder s) (hp : (0 : Char8) ∉ path)
    (hw : walkOf s.content none FilePtr.root (pathElems path) = w) (hcode : w.code ≠ 0)
    (hdir : w.dir = none) :
    ∃ s', (∀ depth, fileCreate s (depth + 1) path = .ok (w.code, none, s')) ∧ Looks s s' := by
  obtain ⟨s', hwalk, hl, -⟩ := h.walk_missing hp hw hcode
  refine ⟨s', fun depth => ?_, hl⟩
  unfold fileCreate
  rw [hwalk, ok_bind]
  simp only [hdir]
  exact if_neg hcode

/-- `file_create` where there is room. -/
lemma fileCreate_room (h : InOrder s) (hp : (0 : Char8) ∉ path)
    (hw : walkOf s.content none FilePtr.root (pathElems path) = w) (hcode : w.code ≠ 0)
    (hdir : w.dir = some dir) (hroom : Room s.content dir) (hclean : NewFileClean s (depth + 1) path) :
    ∃ f s', (∀ depth, fileCreate s (depth + 1) path = .ok (0, some f, s')) ∧
      s'.mapped f.block = true ∧ (wordAt s'.content f.type = ftypeLnk ↔ OldLink s.content dir) ∧
      (wordAt s'.content f.type ≠ ftypeLnk → FoundAt s'.content path f) ∧
      FoundAt (s'.store f.type ftypeDir).content path f := by
  obtain ⟨s1, hwalk, hl, h1, hw1, hd⟩ := h.walk_missing hp hw hcode
  obtain ⟨hm, hd, ht, hnot⟩ := hd dir hdir
  have hv := (h.inv.looks hl).1
  have hwhole := h1.wholeDir (hv.isFile_iff.mpr hd) hm ((hv.browses.type hd.dirent).trans ht)
  have hclean := hclean w s1 dir (hwalk depth) hnot hdir
  obtain ⟨hr, hlnk⟩ := h.room_iff hl hd ht
  obtain ⟨f, s2, halloc⟩ := hwhole.dirAllocFile_granted hclean (hr.mpr hroom)
  rw [← hlnk]
  refine ⟨f, s2.setName f w.lastelem, fun depth => ?_,
    h1.newFile hp (hw1 ▸ hcode) (hw1 ▸ hdir) hm hclean halloc (hw1 ▸ rfl)⟩
  unfold fileCreate
  rw [hwalk, ok_bind]
  simp only [hdir]
  rw [if_neg hcode, if_neg (not_not_intro hnot), halloc]
  rfl

/-- `file_create` where there is no room: the directory has become bigger. -/
lemma fileCreate_no_room {x : Option FilePtr} (h : InOrder s) (hp : (0 : Char8) ∉ path)
    (hw : walkOf s.content none FilePtr.root (pathElems path) = w) (hcode : w.code ≠ 0)
    (hdir : w.dir = some dir) (hroom : ¬ Room s.content dir) (hclean : NewFileClean s (depth + 1) path)
    (hc : fileCreate s (depth + 1) path = .ok (r, x, s')) :
    x = none ∧ r = w.code ∧ wordAt s'.content dir.size = wordAt s.content dir.size + 4096 := by
  obtain ⟨s1, hwalk, hl, h1, -, hd⟩ := h.walk_missing hp hw hcode
  obtain ⟨hm, hd, ht, hnot⟩ := hd dir hdir
  have hv := (h.inv.looks hl).1
  have hwhole := h1.wholeDir (hv.isFile_iff.mpr hd) hm ((hv.browses.type hd.dirent).trans ht)
  have hclean := hclean w s1 dir (hwalk depth) hnot hdir
  rw [← (h.room_iff hl hd ht).1] at hroom
  unfold fileCreate at hc
  rw [hwalk, ok_bind] at hc
  simp only [hdir] at hc
  rw [if_neg hcode, if_neg (not_not_intro hnot)] at hc
  obtain ⟨⟨y, s2⟩, halloc, h2⟩ := bind_eq_ok.mp hc
  obtain ⟨hgrant, hsize⟩ := hwhole.dirAllocFile_cases hclean halloc
  cases y with
  | ok f => exact absurd (hgrant f rfl).1 hroom
  | error e =>
    cases h2
    refine ⟨rfl, rfl, ?_⟩
    rw [hsize e rfl, (hv.same.agrees dir hd.dirent).size]

end InOrder

/-! ## `serve_open` -/

/-- The file can be opened or made: the path leads to a file, or there is room for one where it has to
be made, and with `O_CREAT` no old type of a link. -/
def CanOpen (c : Blocks) (path : List Char8) (omode : Word) : Prop :=
  (∃ f, FoundAt c path f) ∨
    (walkOf c none FilePtr.root (pathElems path)).code ≠ 0 ∧
      (omode &&& oCreat ≠ 0 →
        ∀ d, (walkOf c none FilePtr.root (pathElems path)).dir = some d → Room c d ∧ ¬ OldLink c d) ∧
      (omode &&& oCreat = 0 → omode &&& oMkdir ≠ 0 →
        ∃ d, (walkOf c none FilePtr.root (pathElems path)).dir = some d ∧ Room c d)

/-- A file at the path that is in the cache, or an error and nothing changed. -/
def PathAnswer (s s' : BlockCache) (path : List Char8) (r : Word) (x : Option FilePtr) : Prop :=
  (r.slt 0 = false ∧ ∃ f, x = some f ∧ s'.mapped f.block = true ∧ FoundAt s'.content path f) ∨
    (r.slt 0 = true ∧ KeepsStructures s.content s'.content)

namespace InOrder

/-- The walks that fail give an error and no file. -/
lemma code_of_missing
    (hcode : (walkOf c none FilePtr.root (pathElems path)).code ≠ 0) :
    (walkOf c none FilePtr.root (pathElems path)).file = none ∧
      (walkOf c none FilePtr.root (pathElems path)).code.slt 0 = true := by
  have hfile : (walkOf c none FilePtr.root (pathElems path)).file = none := by
    cases hfile : (walkOf c none FilePtr.root (pathElems path)).file with
    | none => rfl
    | some f => exact absurd (walkOf_code hfile) hcode
  exact ⟨hfile, walkOf_file_none hfile⟩

/-- If the file can be opened or made, the answer is as it should be. -/
theorem openPath_ok {omode : Word} (h : InOrder s) (hp : (0 : Char8) ∉ path)
    (hclean : MakesClean s path omode) (hopen : CanOpen s.content path omode) :
    ∃ depth r x s', openPath s depth path omode = .ok (r, x, s') ∧ PathAnswer s s' path r x := by
  rcases hopen with ⟨f, hf⟩ | ⟨hcode, hcreat, hmkdir⟩
  · obtain ⟨depth, w, s', hwalk, hcode, hfile, hl, hm⟩ :=
      CacheInv.walkPath_found h.intact hf ((Loads.refl s).visits h.inv) h.pages hp
    refine ⟨depth, 0, some f, s', ?_, .inl ⟨by decide, f, rfl, hm,
      (h.intact.foundAt_iff (h.inv.looks hl).1 hp).mpr hf⟩⟩
    unfold openPath fileOpen
    rw [hwalk]
    simp only [ok_bind, pure_eq_ok, hcode, hfile]
    rfl
  · obtain ⟨hnone, hneg⟩ := code_of_missing hcode
    generalize hw :
      walkOf s.content none FilePtr.root (pathElems path) = w at hcode hcreat hmkdir hnone hneg
    obtain ⟨s1, hwalk, hl, h1, hw1, hdir⟩ := h.walk_missing hp hw hcode
    have hkeep := (h.inv.looks hl).2
    have hroom := fun d hd => h.room_iff hl (hdir d hd).2.1 (hdir d hd).2.2.1
    have hfile : fileOpen s 1 path = .ok (w.code, none, s1) := by
      unfold fileOpen
      rw [hwalk 0]
      simp only [ok_bind, pure_eq_ok, hnone]
    have hopen : ∀ depth, openPath s (depth + 1) path omode =
        openMissing s1 (depth + 1) path omode w.code none := fun depth => by
      unfold openPath fileOpen
      rw [hwalk]
      simp only [ok_bind, pure_eq_ok, hnone]
      exact if_pos hneg
    refine ⟨1, ?_⟩
    rw [hopen 0]
    unfold openMissing
    by_cases hc : omode &&& oCreat = 0
    · rw [if_neg (not_not_intro hc)]
      by_cases hk : omode &&& oMkdir = 0
      · rw [if_neg (not_not_intro hk)]
        exact ⟨_, _, s1, rfl, .inr ⟨hneg, hkeep⟩⟩
      · rw [if_pos hk]
        obtain ⟨d, hd, hr⟩ := hmkdir hc hk
        obtain ⟨f, s2, hcreate, hm, -, -, hfound⟩ := h1.fileCreate_room hp hw1 hcode hd
          ((hroom d hd).1.mpr hr) (hclean (.inr hk) 1 _ _ s1 hfile hneg)
        rw [hcreate 0]
        exact ⟨_, _, _, rfl, .inl ⟨by decide, f, rfl, hm, hfound⟩⟩
    · rw [if_pos hc]
      cases hd : w.dir with
      | none =>
        obtain ⟨s2, hcreate, hl2⟩ := h1.fileCreate_no_dir hp hw1 hcode hd
        rw [hcreate 0]
        exact ⟨_, _, _, rfl, .inr ⟨hneg, (h.inv.looks (hl.trans hl2)).2⟩⟩
      | some d =>
        obtain ⟨hr, hnl⟩ := hcreat hc d hd
        obtain ⟨f, s2, hcreate, hm, hlnk, hfound, -⟩ := h1.fileCreate_room hp hw1 hcode hd
          ((hroom d hd).1.mpr hr) (hclean (.inl hc) 1 _ _ s1 hfile hneg)
        rw [hcreate 0]
        exact ⟨_, _, _, rfl, .inl ⟨by decide, f, rfl, hm,
          hfound fun ht => hnl ((hroom d hd).2.mp (hlnk.mp ht))⟩⟩

/-- If the file can neither be opened nor made, there is an error with a change, or a success without a
file or with a link. -/
theorem canOpen_of_openPath {omode : Word} {x : Option FilePtr} (h : InOrder s)
    (hp : (0 : Char8) ∉ path) (hopen : openPath s depth path omode = .ok (r, x, s'))
    (hclean : MakesClean s path omode)
    (hok : r.slt 0 = false → ∃ f, x = some f ∧ wordAt s'.content f.type ≠ ftypeLnk)
    (hneg : r.slt 0 = true → KeepsStructures s.content s'.content) :
    CanOpen s.content path omode := by
  unfold openPath at hopen
  obtain ⟨⟨r1, x1, s1⟩, hfile, h1⟩ := bind_eq_ok.mp hopen
  have hnew := fun hc => hclean hc depth r1 x1 s1 hfile
  unfold fileOpen at hfile
  obtain ⟨⟨y, s2⟩, hwalk, h2⟩ := bind_eq_ok.mp hfile
  cases h2
  obtain ⟨hcode, hfound⟩ := h.inv.found_of_walkPath h.intact hp hwalk
  by_cases h0 : y.code = 0
  · -- the names lead to a file, but a link may lead nowhere
    simp only [h0] at h1
    rw [if_neg (by decide)] at h1
    cases h1
    obtain ⟨f, hf, -⟩ := hok (by decide)
    exact .inl ⟨f, hfound f hf⟩
  · have hw0 := hcode ▸ h0
    obtain ⟨hnone, hslt⟩ := code_of_missing hw0
    generalize hw : walkOf s.content none FilePtr.root (pathElems path) = w at hcode hw0 hnone hslt
    obtain ⟨t, hwalk', hl, ht, hwt, hdir⟩ := h.walk_missing hp hw hw0
    cases depth with
    | zero => cases hwalk
    | succ depth =>
      cases (hwalk' depth).symm.trans hwalk
      have hkeep := (h.inv.looks hl).2
      have hiff := fun d hd => h.room_iff hl (hdir d hd).2.1 (hdir d hd).2.2.1
      simp only [hslt, hnone, if_true] at h1
      unfold openMissing at h1
      refine .inr ⟨by rw [hw]; exact hw0, fun hc d hd => ?_, fun hc hk => ?_⟩
      · rw [hw] at hd
        have hd' := (hdir d hd).2.1.dirent
        rw [if_pos hc] at h1
        obtain ⟨⟨r2, x2, t2⟩, hcreate, h3⟩ := bind_eq_ok.mp h1
        have hr : Room s.content d := by
          by_contra hroom
          obtain ⟨rfl, rfl, hsize⟩ := ht.fileCreate_no_room hp hwt hw0 hd
            (fun hr' => hroom ((hiff d hd).1.mp hr')) (hnew (.inl hc) hslt) hcreate
          cases h3
          have hold := hneg hslt d hd' 32 (by decide) (by decide)
          have hold1 := hkeep d hd' 32 (by decide) (by decide)
          exact ne_add_4096 _ (hold1.trans (hold.symm.trans hsize))
        refine ⟨hr, fun hlnk => ?_⟩
        -- the new file is of the old type
        obtain ⟨f, t3, hcreate', -, htype, -⟩ := ht.fileCreate_room hp hwt hw0 hd ((hiff d hd).1.mpr hr)
          (hnew (.inl hc) hslt)
        cases (hcreate' depth).symm.trans hcreate
        cases h3
        obtain ⟨f', hf', hne⟩ := hok (by decide)
        cases hf'
        exact hne (htype.mpr ((hiff d hd).2.mpr hlnk))
      · rw [if_neg (not_not_intro hc), if_pos hk] at h1
        obtain ⟨⟨r2, x2, t2⟩, hcreate, h3⟩ := bind_eq_ok.mp h1
        have hx2 : x2 ≠ none := by
          rintro rfl
          cases h3
        rw [hw]
        cases hd : y.dir with
        | none =>
          obtain ⟨t3, hcreate', -⟩ := ht.fileCreate_no_dir hp hwt hw0 hd
          cases (hcreate' depth).symm.trans hcreate
          exact absurd rfl hx2
        | some d =>
          refine ⟨d, rfl, ?_⟩
          by_contra hroom
          exact hx2 (ht.fileCreate_no_room hp hwt hw0 hd (fun hr' => hroom ((hiff d hd).1.mp hr'))
            (hnew (.inr hk) hslt) hcreate).1

end InOrder

/-- The entry `i` of `opentab`, with the page that is sent, describes the file. -/
structure Describes (s : FileServer) (i : ℕ) (f : FilePtr) : Prop where
  file : (s.opentab i).file = some f
  fileid : (s.opentab i).ff.fileid = (s.opentab i).fileid
  words : ∀ k < 64, (s.opentab i).ff.file k = wordAt s.cache.content ⟨f.block, f.word + k⟩

/-- **The answer of `serve_open`**: the page that describes the file at the path, or an error that
leaves the structures of files as they were. -/
def OpenAnswers (s s' : FileServer) (envid : Word) (path : List Char8) : Prop :=
  (∃ i f, s'.replies = s.replies ++ [.filefd envid i] ∧ FoundAt s'.cache.content path f ∧
      Describes s' i f) ∨
    ∃ r : Word, r.slt 0 = true ∧ s'.replies = s.replies ++ [.value envid r] ∧
      KeepsStructures s.cache.content s'.cache.content

section Serve

variable {s s' : FileServer} {envid omode : Word}

/-- What is sent if there is a file. -/
lemma finishOpen_some (envid omode : Word) (i : ℕ) (hm : s.cache.mapped f.block = true) :
    ∃ s', finishOpen s envid omode (some i) (some f) = .ok s' ∧
      s'.replies = s.replies ++ [.filefd envid i] ∧ s'.cache = s.cache ∧ Describes s' i f := by
  refine ⟨_, rfl, rfl, rfl, ?_, ?_, fun k hk => ?_⟩
  · show (Function.update s.opentab i _ i).file = some f
    rw [Function.update_self]
  · show (Function.update s.opentab i _ i).ff.fileid = (Function.update s.opentab i _ i).fileid
    rw [Function.update_self]
  · show (Function.update s.opentab i _ i).ff.file k = s.cache.content f.block (f.word + k)
    rw [Function.update_self, content_of_mapped hm]
    exact if_pos hk

/-- `open_alloc` that does not fail. -/
lemma InOrder.openAlloc (h : InOrder s.cache) (halloc : AllocOk s) :
    ∃ r i t, MosVolca.openAlloc s = (r, some i, t) ∧ r.slt 0 = false ∧ t.replies = s.replies ∧
      InOrder t.cache ∧ t.cache.content = s.cache.content := by
  obtain ⟨i, hfind, -, hpos⟩ := halloc
  have hload : Loads s.cache { s.cache with grants := fun n => s.cache.grants (n + 1) } :=
    ⟨rfl, fun _ hb => hb, rfl, rfl⟩
  have hrest : InOrder { s.cache with grants := fun n => s.cache.grants (n + 1) } :=
    ⟨hload.inv h.inv, h.intact, fun n => h.pages (n + 1)⟩
  unfold MosVolca.openAlloc
  rw [hfind]
  simp only
  by_cases hp : (s.opentab i).pageref = 1
  · rw [if_pos hp]
    exact ⟨_, i, _, rfl, hpos, rfl, h, rfl⟩
  · rw [if_neg hp, if_pos (h.pages 0)]
    exact ⟨_, i, _, rfl, hpos, rfl, hrest, rfl⟩

/-- One reply is sent only if `open_alloc` does not fail. -/
lemma allocOk_of_once {reply : Reply} (h : serveOpen s depth envid path omode = .ok s')
    (hr : s'.replies = s.replies ++ [reply]) : AllocOk s := by
  refine (allocOk_iff s).mpr ?_
  obtain ⟨last, -, hlast⟩ := (serveOpen_end h).once
  rw [sendError_replies, openAlloc_replies] at hlast
  have hlen := congrArg List.length (hr.symm.trans hlast)
  by_contra hneg
  rw [Bool.not_eq_false] at hneg
  rw [if_pos hneg] at hlen
  simp at hlen

/-- What is sent if there is a file is about that file. -/
lemma finishOpen_file {x : Option FilePtr} {i j : ℕ}
    (h : finishOpen s envid omode (some i) x = .ok s') (hr : s'.replies = s.replies ++ [.filefd envid j])
    (hf : (s'.opentab j).file = some f) : x = some f ∧ s'.cache = s.cache := by
  cases x with
  | none => cases h
  | some g =>
    cases h
    have hr := List.append_cancel_left hr
    simp only [List.cons.injEq, Reply.filefd.injEq, true_and, and_true] at hr
    subst hr
    refine ⟨?_, rfl⟩
    rw [← hf]
    show some g = (Function.update s.opentab i _ i).file
    rw [Function.update_self]

/-- **When `serve_open` answers as it should**, for a file system in order where no old data come into a
directory: exactly if `open_alloc` does not fail and the file can be opened or made.

**Proof sketch.** A single reply means that `open_alloc` did not fail, and the entry that it describes
that the path leads somewhere; backwards, the walk and `file_create` are followed in the contents. -/
theorem serveOpen_answers_iff (h : InOrder s.cache) (hp : (0 : Char8) ∉ path)
    (hclean : MakesClean (openAlloc s).2.2.cache path omode) :
    (∃ depth s', serveOpen s depth envid path omode = .ok s' ∧ OpenAnswers s s' envid path) ↔
      AllocOk s ∧ CanOpen s.cache.content path omode := by
  constructor
  · rintro ⟨depth, s', hserve, hans⟩
    have hok : AllocOk s := by
      rcases hans with ⟨i, f, hr, -⟩ | ⟨r, -, hr, -⟩
      · exact allocOk_of_once hserve hr
      · exact allocOk_of_once hserve hr
    refine ⟨hok, ?_⟩
    obtain ⟨r0, i0, t, halloc, hr0, hreplies, ht, hcon⟩ := h.openAlloc hok
    have hsend : sendError t envid r0 = t := if_neg (by rw [hr0]; exact Bool.false_ne_true)
    rw [halloc] at hclean
    rw [serveOpen_eq, halloc] at hserve
    simp only [hsend] at hserve
    obtain ⟨⟨r, x, c⟩, hopen, h1⟩ := bind_eq_ok.mp hserve
    rw [← hcon]
    simp only at h1
    refine ht.canOpen_of_openPath hp hopen hclean (fun hr => ?_) fun hr => ?_
    · rw [if_neg (by rw [hr]; exact Bool.false_ne_true)] at h1
      rcases hans with ⟨i, f, hlist, hfound, hdesc⟩ | ⟨r', -, hlist, -⟩
      · obtain ⟨rfl, hcache⟩ := finishOpen_file h1 (hreplies ▸ hlist) hdesc.file
        rw [hcache] at hfound
        exact ⟨f, rfl, hfound.type_ne⟩
      · cases x with
        | none => cases h1
        | some g =>
          cases h1
          rw [← hreplies] at hlist
          exact absurd (List.append_cancel_left hlist) (by simp)
    · rw [if_pos hr] at h1
      cases h1
      rcases hans with ⟨i, f, hlist, -⟩ | ⟨-, -, -, hkeep⟩
      · rw [← hreplies] at hlist
        exact absurd (List.append_cancel_left hlist) (by simp)
      · rwa [hcon]
  · rintro ⟨hok, hopen⟩
    obtain ⟨r0, i0, t, halloc, hr0, hreplies, ht, hcon⟩ := h.openAlloc hok
    rw [halloc] at hclean
    rw [← hcon] at hopen
    obtain ⟨depth, r, x, c, hpath, hans⟩ := ht.openPath_ok hp hclean hopen
    have hsend : sendError t envid r0 = t := if_neg (by rw [hr0]; exact Bool.false_ne_true)
    refine ⟨depth, ?_⟩
    rw [serveOpen_eq, halloc]
    simp only [hsend]
    rw [hpath]
    simp only [ok_bind]
    rcases hans with ⟨hr, f, rfl, hm, hfound⟩ | ⟨hr, hkeep⟩
    · rw [if_neg (by rw [hr]; exact Bool.false_ne_true)]
      have hm : ({ t with cache := c } : FileServer).cache.mapped f.block = true := hm
      obtain ⟨s', hfin, hlist, hcache, hdesc⟩ := finishOpen_some envid omode i0 hm
      refine ⟨s', hfin, .inl ⟨i0, f, hlist.trans (congrArg (· ++ _) hreplies), ?_, hdesc⟩⟩
      rw [hcache]
      exact hfound
    · rw [if_pos hr]
      exact ⟨_, rfl, .inr ⟨r, hr, congrArg (· ++ _) hreplies, by rw [← hcon]; exact hkeep⟩⟩

end Serve

/-! ## A missing directory -/

lemma linkDisk_inOrder : InOrder (linkDisk 0x6C) where
  inv := linkDisk_inv
  intact := by
    rw [linkDisk_content]
    exact linkBlocks_intact
  pages := fun _ => rfl

/-- The creation of the file `x` beside a link. -/
theorem serveOpen_answers_iff_create :
    ∃ depth s', serveOpen (serveInit (linkDisk 0x6C)) depth 7 [0x78] oCreat = .ok s' ∧
      OpenAnswers (serveInit (linkDisk 0x6C)) s' 7 [0x78] := by
  have hcon := linkDisk_content 0x6C
  have hw : walkOf (linkBlocks 0x6C) none FilePtr.root (pathElems [0x78]) =
      ⟨-eNotFound, some FilePtr.root, none, [0x78]⟩ := rfl
  have hspare : spare (linkBlocks 0x6C) FilePtr.root = some (FilePtr.entry 3 1) := by decide
  have hclean : MakesClean (openAlloc (serveInit (linkDisk 0x6C))).2.2.cache [0x78] oCreat := by
    have h1 : InOrder (openAlloc (serveInit (linkDisk 0x6C))).2.2.cache :=
      ⟨⟨rfl, rfl, linkDisk_inv.map, linkDisk_inv.consistent⟩, linkDisk_inOrder.intact, fun _ => rfl⟩
    refine h1.makesClean (by decide) (hcon ▸ hw) (by decide) fun d hd => ?_
    cases hd
    exact ⟨_, hcon ▸ hspare⟩
  refine (serveOpen_answers_iff (s := serveInit (linkDisk 0x6C)) linkDisk_inOrder (by decide)
    hclean).mpr ⟨⟨0, rfl, .inr rfl, by decide⟩, .inr ?_⟩
  show _ ∧ _ ∧ _
  rw [show (serveInit (linkDisk 0x6C)).cache.content = linkBlocks 0x6C from hcon, hw]
  refine ⟨by decide, fun _ d hd => ⟨?_, ?_⟩, fun h => absurd h (by decide)⟩
  · cases hd
    exact .inl ⟨_, hspare⟩
  · cases hd
    rintro ⟨g, hg, ht⟩
    cases hspare.symm.trans hg
    exact absurd ht (by decide)

/-- **A null pointer**: the directory `y` in the directory `x`, which is not there. -/
theorem serveOpen_mkdir_fails : ¬ ∀ (s : FileServer) (envid omode : Word) (path : List Char8),
    InOrder s.cache → AllocOk s → (0 : Char8) ∉ path →
    ∃ depth s', serveOpen s depth envid path omode = .ok s' ∧ OpenAnswers s s' envid path := by
  intro h
  obtain ⟨depth, s', hserve, -⟩ := h (serveInit (linkDisk 0x6C)) 7 oMkdir [0x78, 0x2F, 0x79]
    linkDisk_inOrder ⟨0, rfl, .inr rfl, by decide⟩ (by decide)
  cases depth with
  | zero => cases hserve
  | succ depth =>
    have herr : serveOpen (serveInit (linkDisk 0x6C)) (depth + 1) 7 [0x78, 0x2F, 0x79] oMkdir =
        .error .nullAccess := rfl
    rw [herr] at hserve
    cases hserve

end MosVolca
