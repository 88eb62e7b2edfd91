import MosVolca.Fs.Start
import MosVolca.Fs.WalkDirs
import MosVolca.Tools.HostPaths

/-!
# The tree that the server serves

The server starts with the image of the formatter, and its walks lead to the files of the host: `walk_path`
along any path finds what the host has there, links and all. A link is followed to the end, with paths
that start at the root, and a link that leads nowhere is no error of the walk.

## Main definitions

* `MosVolca.HostDir.follow` — what a path leads to on the host, if the links are followed.
* `MosVolca.walkAll` — a run of walks.
* `MosVolca.Answers` — a walk leads to what the host has at the path.

## Main results

* `MosVolca.HoldsDir.intact` — a disk with the tree of a host on it is in order.
* `MosVolca.walkPath_answers`, `MosVolca.walkPath_total` — one walk.
* `MosVolca.walkAll_formatDisk` — all walks after the start from an image.
-/

namespace MosVolca

variable {n depth : ℕ} {c : Blocks} {s1 t t0 t' : BlockCache} {f g : FilePtr} {d args : HostDir}
  {path : List Char8} {elems : List (List Char8)} {w : Walk}

/-! ## Links on the host -/

/-- What the path leads to, with at most so many links inside one another. A link that leads nowhere
gives `some none`, and `none` are too many links. -/
def HostDir.follow (d : HostDir) : ℕ → List Char8 → Option (Option HostNode)
  | 0, _ => none
  | depth + 1, path =>
    match d.resolve (pathElems path) with
    | some (.link target) => d.follow depth (target.takeWhile (· ≠ 0))
    | r => some r

/-- What a walk leaves behind for a path. -/
structure Answers (d : HostDir) (c : Blocks) (path : List Char8) (r : Option HostNode) (w : Walk) :
    Prop where
  code : w.code = 0 ↔ (d.resolve (pathElems path)).isSome
  file : match r with
    | some x => ∃ g, w.file = some g ∧ IsNode c g x
    | none => w.file = none

/-! ## The image is in order -/

/-- Only a directory of the host has the type of one. -/
lemma IsNode.of_type_dir {x : HostNode} (h : IsNode c g x) (ht : wordAt c g.type = ftypeDir) :
    ∃ children, HoldsDir c g children := by
  cases x with
  | file data => exact absurd (h.1.symm.trans ht) (by decide)
  | link target => exact absurd (h.1.symm.trans ht) (by decide)
  | dir children => exact ⟨children, h⟩

/-- Only a link of the host has the type of one. -/
lemma IsNode.of_type_link {x : HostNode} (h : IsNode c g x) (ht : wordAt c g.type = ftypeLnk) :
    ∃ text, TextAt c g text := by
  cases x with
  | file data => exact absurd (h.1.symm.trans ht) (by decide)
  | link target => exact ⟨target, h.2.2⟩
  | dir children => exact absurd (h.type.symm.trans ht) (by decide)

/-- A file of the image with a type of its own is a node of the host. -/
lemma HoldsDir.exists_isNode (h : HoldsDir c FilePtr.root d) (hf : IsFile c f)
    (ht : wordAt c f.type ≠ 0) : ∃ x, IsNode c f x := by
  rcases h.isNode hf.dirent with hx | hzero
  · exact hx
  · exact absurd (hzero 33 (by decide)) ht

/-- **A disk with the tree of a host on it is in order.** -/
theorem HoldsDir.intact (h : HoldsDir c FilePtr.root d) (hn : nblocksOf c ≤ 0x40000) : Intact c where
  small := hn
  whole := by
    intro f hf ht i hi
    obtain ⟨x, hx⟩ := h.exists_isNode hf (ht.trans_ne (by decide))
    obtain ⟨children, hdir⟩ := hx.of_type_dir ht
    exact hdir.exists_holds hi
  link := by
    intro f hf ht
    obtain ⟨x, hx⟩ := h.exists_isNode hf (ht.trans_ne (by decide))
    obtain ⟨text, htext⟩ := hx.of_type_link ht
    obtain ⟨hne, htarget⟩ := htext.target_eq ht
    exact ⟨hne, _, htarget⟩

/-! ## One walk -/

/-- The target of a link is a string. -/
lemma zero_notMem_takeWhile (text : List Char8) : (0 : Char8) ∉ text.takeWhile (· ≠ 0) := by
  intro hmem
  have hne := List.mem_takeWhile_imp hmem
  simp at hne

/-- What is no link has no target. -/
lemma IsNode.target_eq_none {x : HostNode} (hx : IsNode c g x) (hno : ∀ text, x ≠ .link text) :
    target c g = none := by
  apply if_neg
  intro ht
  cases x with
  | file data => exact absurd (hx.1.symm.trans ht) (by decide)
  | link text => exact hno text rfl
  | dir children => exact absurd (hx.type.symm.trans ht) (by decide)

section Walks

variable (h : HoldsDir t0.content FilePtr.root d) (hn : nblocksOf t0.content ≤ 0x40000)
  (hv : Visits t0 t) (hg : HasPages t) (hp : (0 : Char8) ∉ path)

/-- The part of a walk before the links leads to what the host has at the path. -/
structure PathResolves (d : HostDir) (t0 t : BlockCache) (path : List Char8) (w : Walk) (s1 : BlockCache) :
    Prop where
  visits : Visits t s1
  walks : LeadsTo t0.content w (d.resolve (pathElems path))
  linked : linkedPath t.content path = w.file.bind (target t0.content)
  found : ∀ g, w.file = some g → s1.mapped g.block = true ∧ IsFile t0.content g

include h hn hv hp in
lemma walkElems_resolves (hrun : walkElems t none FilePtr.root (pathElems path) = .ok (w, s1)) :
    PathResolves d t0 t path w s1 := by
  have hnames := isName_pathElems hp
  have hi := h.intact hn
  obtain ⟨hv1, rfl, hmap⟩ :=
    hv.inv.walkElems_whole (hi.of_visits hv).whole (.inl rfl) hv.inv.root.mapped hnames hrun
  refine ⟨hv1, ?_, ?_, fun g hg => ⟨hmap g hg, ?_⟩⟩
  · rw [hv.browses.walkOf (.inl rfl) hnames]
    exact IsNode.walkOf_resolve (x := .dir d) h hnames
  · rw [hi.linkedPath_eq hv hp, hv.browses.walkOf (.inl rfl) hnames]
    rfl
  · exact hv.isFile_iff.mp (walkOf_isFile (.inl rfl) hnames hg)

/-- The answer to a path that leads to no link. -/
lemma PathResolves.answers {r : Option HostNode} (hres : PathResolves d t0 t path w s1)
    (hr : d.resolve (pathElems path) = r) : Answers d t0.content path r w := by
  have hwalks := hres.walks
  rw [hr] at hwalks
  cases r with
  | none =>
    obtain ⟨hcode, hfile⟩ := hwalks
    refine ⟨?_, hfile⟩
    rw [hr]
    refine ⟨fun h0 => ?_, fun hsome => absurd hsome Bool.false_ne_true⟩
    rw [h0] at hcode
    exact absurd hcode (by decide)
  | some x =>
    obtain ⟨hcode, g, hfile, hx⟩ := hwalks
    refine ⟨?_, g, hfile, hx⟩
    rw [hr]
    exact iff_of_true hcode rfl

variable (depth) in
include hv h hn hp in
/-- A walk that leads to no link ends where its names lead. -/
lemma PathResolves.walkPath_stop {r : Option HostNode} (hres : PathResolves d t0 t path w s1)
    (hrun : walkElems t none FilePtr.root (pathElems path) = .ok (w, s1))
    (hr : d.resolve (pathElems path) = r) (hno : ∀ text, r ≠ some (.link text)) :
    walkPath t path (depth + 1) = .ok (w, s1) := by
  have hwalks := hres.walks
  have hlinked := hres.linked
  rw [hr] at hwalks
  rw [walkPath, hrun]
  simp only [ok_bind]
  cases r with
  | none =>
    rw [hwalks.2]
    rfl
  | some x =>
    obtain ⟨-, g, hfile, hx⟩ := hwalks
    rw [hfile, Option.bind_some, hx.target_eq_none fun text heq => hno text (congrArg some heq)]
      at hlinked
    rw [hfile]
    exact if_neg (hv.inv.type_of_linkedPath_none ((h.intact hn).of_visits hv) hp hrun hlinked hfile)

variable (depth) in
include hv h hn hp in
/-- A walk that leads to a link goes on with its target, from the root. -/
lemma PathResolves.walkPath_link {text : List Char8} (hres : PathResolves d t0 t path w s1)
    (hrun : walkElems t none FilePtr.root (pathElems path) = .ok (w, s1))
    (hr : d.resolve (pathElems path) = some (.link text)) :
    ∃ b, Usable s1.content b ∧ walkPath t path (depth + 1) = (do
      let (_, s2) ← readBlock s1 b
      let (w', s3) ← walkPath s2 (text.takeWhile (· ≠ 0)) depth
      pure ({ w with file := w'.file }, s3)) := by
  have hwalks := hres.walks
  have hlinked := hres.linked
  rw [hr] at hwalks
  obtain ⟨-, g, hfile, htype, -, htext⟩ := hwalks
  rw [hfile, Option.bind_some, (htext.target_eq htype).2] at hlinked
  obtain ⟨f, hfile', hlnk, hu, hstr⟩ :=
    hv.inv.block_of_linkedPath ((h.intact hn).of_visits hv) hp hrun hlinked
  refine ⟨_, hu, ?_⟩
  rw [walkPath, hrun]
  simp only [ok_bind, hfile']
  rw [if_pos hlnk]
  cases hread : readBlock s1 (s1.load (f.direct 0)).toNat with
  | error e => rfl
  | ok y =>
    obtain ⟨isnew, s2⟩ := y
    simp only [ok_bind, hstr isnew s2 hread]

/-- A walk and the rest of it give an answer together. -/
lemma Answers.link {r : Option HostNode} {w' : Walk} {text path' : List Char8}
    (h : Answers d c path (some (.link text)) w) (h' : Answers d c path' r w') :
    Answers d c path r { w with file := w'.file } where
  code := h.code
  file := h'.file

include h hn hv hp in
/-- **A walk that returns leads to what the host has at its path.**

**Proof sketch.** Induction on the links that may still come. The names of the path lead to what the host
has under them. If that is a link, its target is in the block of the link, with a zero behind it, and the
walk goes on with it from the root. Walks change nothing that other walks look at. -/
theorem walkPath_answers (hrun : walkPath t path depth = .ok (w, t')) :
    Visits t t' ∧ (∀ g, w.file = some g → t'.mapped g.block = true ∧ IsFile t0.content g) ∧
      ∃ r, d.follow depth path = some r ∧ Answers d t0.content path r w := by
  induction depth generalizing path t w t' with
  | zero => cases hrun
  | succ depth ih =>
    rw [HostDir.follow]
    have hbegin := hrun
    rw [walkPath] at hbegin
    obtain ⟨⟨x, s1⟩, helems, -⟩ := bind_eq_ok.mp hbegin
    have hres := walkElems_resolves h hn hv hp helems
    have hstop : ∀ r, d.resolve (pathElems path) = r → (∀ text, r ≠ some (.link text)) →
        Visits t t' ∧ (∀ g, w.file = some g → t'.mapped g.block = true ∧ IsFile t0.content g) ∧
          ∃ r', some r = some r' ∧ Answers d t0.content path r' w := by
      intro r hr hno
      rw [hres.walkPath_stop depth h hn hv hp helems hr hno] at hrun
      cases hrun
      exact ⟨hres.visits, hres.found, r, rfl, hres.answers hr⟩
    cases hr : d.resolve (pathElems path) with
    | none => exact hstop none hr fun _ h => by cases h
    | some y =>
      cases y with
      | file data => exact hstop _ hr fun _ h => by cases h
      | dir children => exact hstop _ hr fun _ h => by cases h
      | link text =>
        obtain ⟨b, -, hwalk⟩ := hres.walkPath_link depth h hn hv hp helems hr
        rw [hwalk] at hrun
        obtain ⟨⟨isnew, s2⟩, hread, h2⟩ := bind_eq_ok.mp hrun
        obtain ⟨⟨w', s3⟩, hrest, h3⟩ := bind_eq_ok.mp h2
        cases h3
        have hv2 := hres.visits.trans ((readBlock_loads hread).1.visits hres.visits.inv)
        obtain ⟨hv', hfound, r, hf, hanswer⟩ :=
          ih (hv.trans hv2) (zero_notMem_takeWhile text) hrest
        exact ⟨hv2.trans hv', hfound, r, hf, (hres.answers hr).link hanswer⟩

variable (depth) in
include h hn hv hg hp in
/-- **A walk returns** while the kernel has pages, unless there are too many links. -/
theorem walkPath_total :
    match d.follow depth path with
    | some _ => ∃ w t', walkPath t path depth = .ok (w, t') ∧ HasPages t'
    | none => walkPath t path depth = .error (.panic "the stack is full") := by
  have hi := h.intact hn
  induction depth generalizing path t with
  | zero => exact rfl
  | succ depth ih =>
    rw [HostDir.follow]
    have hit := hi.of_visits hv
    have hnames := isName_pathElems hp
    obtain ⟨w, s1, helems, hg1⟩ := hv.inv.walkElems_granted (d := none) hg hit.small hit.whole (.inl rfl)
      hv.inv.root.mapped hnames
    have hres := walkElems_resolves h hn hv hp helems
    have hstop := fun (r : Option HostNode) (hr : d.resolve (pathElems path) = r) hno =>
      hres.walkPath_stop depth h hn hv hp helems hr hno
    cases hr : d.resolve (pathElems path) with
    | none => exact ⟨w, s1, hstop none hr fun _ => nofun, hg1⟩
    | some y =>
      cases y with
      | file data => exact ⟨w, s1, hstop _ hr fun _ => nofun, hg1⟩
      | dir children => exact ⟨w, s1, hstop _ hr fun _ => nofun, hg1⟩
      | link text =>
        obtain ⟨b, hu, hwalk⟩ := hres.walkPath_link depth h hn hv hp helems hr
        obtain ⟨isnew, s2, hread, hg2⟩ :=
          hres.visits.inv.readBlock_granted hg1 (hit.of_visits hres.visits).small hu
        have hv2 := (hv.trans hres.visits).trans ((readBlock_loads hread).1.visits hres.visits.inv)
        have hrest := ih hv2 hg2 (zero_notMem_takeWhile text)
        simp only
        rw [hwalk, hread]
        simp only [ok_bind]
        cases hf : d.follow depth (text.takeWhile (· ≠ 0)) with
        | none =>
          simp only [hf] at hrest
          show _ = _
          rw [hrest]
          rfl
        | some r =>
          simp only [hf] at hrest
          obtain ⟨w', t', hwalk', hg'⟩ := hrest
          exact ⟨{ w with file := w'.file }, t', by rw [hwalk']; rfl, hg'⟩

end Walks

/-! ## All walks -/

/-- A run of walks, one after the other. -/
def walkAll (depth : ℕ) (s : BlockCache) : List (List Char8) → Kernel (List Walk × BlockCache)
  | [] => pure ([], s)
  | path :: paths => do
    let (w, s) ← walkPath s path depth
    let (ws, s) ← walkAll depth s paths
    pure (w :: ws, s)

/-- **A run of walks** returns exactly if no path leads through too many links, and then each walk leads
to what the host has at its path. -/
lemma walkAll_follow {paths : List (List Char8)} (h : HoldsDir t0.content FilePtr.root d)
    (hn : nblocksOf t0.content ≤ 0x40000) (hv : Visits t0 t) (hg : HasPages t)
    (hp : ∀ path ∈ paths, (0 : Char8) ∉ path) :
    (∃ ws t', walkAll depth t paths = .ok (ws, t') ∧ List.Forall₂ (fun path w =>
        ∃ r, d.follow depth path = some r ∧ Answers d t0.content path r w) paths ws) ∨
      (∃ path ∈ paths, d.follow depth path = none) ∧
        walkAll depth t paths = .error (.panic "the stack is full") := by
  induction paths generalizing t with
  | nil => exact .inl ⟨[], t, rfl, .nil⟩
  | cons path paths ih =>
    have h0 := hp path List.mem_cons_self
    have hone := walkPath_total depth h hn hv hg h0
    rw [walkAll]
    cases hf : d.follow depth path with
    | none =>
      simp only [hf] at hone
      rw [hone]
      exact .inr ⟨⟨path, List.mem_cons_self, hf⟩, rfl⟩
    | some r =>
      simp only [hf] at hone
      obtain ⟨w, t1, hwalk, hg1⟩ := hone
      obtain ⟨hv1, -, hanswer⟩ := walkPath_answers h hn hv h0 hwalk
      rw [hwalk, ok_bind]
      rcases ih (hv.trans hv1) hg1 fun p hmem => hp p (List.mem_cons_of_mem path hmem) with
        ⟨ws, t2, hrest, hanswers⟩ | ⟨⟨p, hmem, hp⟩, hrest⟩
      · exact .inl ⟨w :: ws, t2, by simp only [hrest]; rfl, .cons hanswer hanswers⟩
      · exact .inr ⟨⟨p, List.mem_cons_of_mem path hmem, hp⟩, by simp only [hrest]; rfl⟩

/-! ## The start from an image -/

/-- **The server starts with the image.** -/
lemma Formatted.acceptable {s : DiskImage} (h : Formatted n args s) (hn : 4 ≤ n) (hmax : n ≤ 0x40000)
    (hdvd : ¬ 32768 ∣ n) : Acceptable s.disk where
  magic := h.image.super.magic
  ge := by
    rw [h.nblocksOf_eq hmax]
    omega
  le := (h.nblocksOf_eq hmax).trans_le hmax
  used := (h.consistent hn hmax hdvd).reserved

/-- **The server has the tree of the host.** -/
structure ServesTree (d : HostDir) (t : BlockCache) : Prop where
  inv : CacheInv t
  small : nblocksOf t.content ≤ 0x40000
  tree : HoldsDir t.content FilePtr.root d
  root : DirCached t FilePtr.root

/-- **The server starts** with the image of the formatter, and has the tree of the host. -/
lemma FitsInto.served (hfits : FitsInto n args) (hshort : args.Short) (hnames : args.CNames) (hn : 4 ≤ n)
    (hmax : n ≤ 0x40000) (hdvd : ¬ 32768 ∣ n) :
    ∃ s t, formatDisk n args = .ok s ∧ fsInit (BlockCache.off s.disk fun _ => true) = .ok t ∧
      HasPages t ∧ ServesTree args t := by
  obtain ⟨s, hrun, h⟩ := hfits.formatted hshort hn hmax
  obtain ⟨t, hinit⟩ : ∃ t, fsInit (BlockCache.off s.disk fun _ => true) = .ok t :=
    (fsInit_cases s.disk).elim (fun hok => ⟨_, hok.2⟩) fun hno =>
      absurd (h.acceptable hn hmax hdvd) hno.1
  have hstart := started_of_fsInit hinit
  have hinv := CacheInv.fsInit (h.consistent hn hmax hdvd) hinit
  have hc : ∀ b ≠ 0, t.content b = s.disk b := fun b hb => by
    rw [hstart.content, Function.update_of_ne hb]
  obtain ⟨⟨htype, hsize, hholds⟩, hend, hends⟩ := formatDisk_holds hfits hshort hn hmax hrun hc
  refine ⟨s, t, hrun, hinit, hstart.pages, hinv, ?_, ?_, fun h0 => absurd ?_ h0⟩
  · rw [nblocksOf, hc 1 one_ne_zero]
    exact (h.nblocksOf_eq hmax).trans_le hmax
  · exact ⟨htype, hsize, hfits.entries, hholds, hend, hends, hfits.narrow, hnames⟩
  · rw [load_eq (p := FilePtr.root.dir) hinv.root.mapped]
    exact (congrFun (hc 1 one_ne_zero) 47).trans (formatDisk_rootDir hfits hn hmax hrun)

/-- **The server serves the tree of the host.** It starts with the image of the formatter, and a run of
walks returns exactly if no path leads through more links than the stack has room for. Then each walk
leads to what the host has at its path, and returns an error exactly if the host has nothing there. -/
theorem walkAll_formatDisk (n : ℕ) (args : HostDir) (hn : 4 ≤ n) (hmax : n ≤ 0x40000)
    (hdvd : ¬ 32768 ∣ n) (hfits : FitsInto n args) (hshort : args.Short) (hnames : args.CNames) :
    ∃ s t, formatDisk n args = .ok s ∧ fsInit (BlockCache.off s.disk fun _ => true) = .ok t ∧
      ∀ depth paths, (∀ path ∈ paths, (0 : Char8) ∉ path) →
        (∃ ws t', walkAll depth t paths = .ok (ws, t') ∧ List.Forall₂ (fun path w =>
            ∃ r, args.follow depth path = some r ∧ Answers args t.content path r w) paths ws) ∨
          (∃ path ∈ paths, args.follow depth path = none) ∧
            walkAll depth t paths = .error (.panic "the stack is full") := by
  obtain ⟨s, t, hrun, hinit, hpages, ht⟩ := hfits.served hshort hnames hn hmax hdvd
  refine ⟨s, t, hrun, hinit, fun depth paths hp => ?_⟩
  exact walkAll_follow ht.tree ht.small ((Loads.refl t).visits ht.inv) hpages hp

/-- For a disk of the default size with a file, a link and a directory. -/
theorem walkAll_formatDisk_nblock : ∃ s t, formatDisk nblock smallTree = .ok s ∧
    fsInit (BlockCache.off s.disk fun _ => true) = .ok t ∧
      ∀ depth paths, (∀ path ∈ paths, (0 : Char8) ∉ path) →
        (∃ ws t', walkAll depth t paths = .ok (ws, t') ∧ List.Forall₂ (fun path w =>
            ∃ r, smallTree.follow depth path = some r ∧ Answers smallTree t.content path r w) paths ws) ∨
          (∃ path ∈ paths, smallTree.follow depth path = none) ∧
            walkAll depth t paths = .error (.panic "the stack is full") :=
  walkAll_formatDisk nblock smallTree (by decide) (by decide) (by decide)
    (smallTree_fits (by decide)) smallTree_short smallTree_cNames

end MosVolca
