import MosVolca.Fs.FileNames

/-!
# What a path leads to

`walk_path` follows the link at the end of a path by calling itself, and does not look at the
result of this call: where the link leads nowhere, it returns 0 and leaves a null pointer behind.

## Main definitions

* `MosVolca.Leads`, `MosVolca.LinkTo`, `MosVolca.Resolves` — where the names of a path and the links
  lead, one `dir_lookup` after the other.
* `MosVolca.Dangling` — the path names a link that leads nowhere.
* `MosVolca.FoundFile` — a file that a caller may use.

## Main results

* `MosVolca.walkElems_cases`, `MosVolca.walkPath_resolves` — what the walks return.
* `MosVolca.walkPath_ok_iff` — `walk_path` returns 0 with a file exactly if no link dangles.
-/

namespace MosVolca

variable {s s' s1 s2 t t' : BlockCache} {f g g' dir : FilePtr} {path target target' : List Char8}
  {name : List Char8} {elems : List (List Char8)} {depth : ℕ} {w : Walk} {r : Word}

/-- The names lead from `f` to `g`; the state is `t` then. -/
inductive Leads : BlockCache → FilePtr → List (List Char8) → FilePtr → BlockCache → Prop
  | nil {s : BlockCache} {f : FilePtr} : Leads s f [] f s
  | cons {s s1 t : BlockCache} {f f1 g : FilePtr} {name : List Char8} {rest : List (List Char8)}
    (hlen : name.length < maxnamelen) (htype : s.load f.type = ftypeDir)
    (hlook : dirLookup s f name = .ok (.ok f1, s1)) (h : Leads s1 f1 rest g t) :
    Leads s f (name :: rest) g t

/-- The path leads to a link, and `target` is the string in its block. -/
def LinkTo (s : BlockCache) (path target : List Char8) (t : BlockCache) : Prop :=
  ∃ f s1 isnew, Leads s FilePtr.root (pathElems path) f s1 ∧ s1.load f.type = ftypeLnk ∧
    readBlock s1 (s1.load (f.direct 0)).toNat = .ok (isnew, t) ∧
    t.stringFrom (s1.load (f.direct 0)).toNat 4096 0 = some target

/-- The path leads to a file, perhaps through links. -/
inductive Resolves : BlockCache → List Char8 → Prop
  | file {s t : BlockCache} {path : List Char8} {f : FilePtr}
    (h : Leads s FilePtr.root (pathElems path) f t) (htype : t.load f.type ≠ ftypeLnk) :
    Resolves s path
  | link {s t : BlockCache} {path target : List Char8} (hl : LinkTo s path target t)
    (h : Resolves t target) : Resolves s path

/-- The path names a link, and what is in the link leads nowhere. -/
def Dangling (s : BlockCache) (path : List Char8) : Prop :=
  ∃ target t, LinkTo s path target t ∧ ¬ Resolves t target

/-- A file that a caller may use: the root, or the structure that `dir_lookup` has just found in a
directory, with its name. -/
def FoundFile (s : BlockCache) (f : FilePtr) : Prop :=
  f = FilePtr.root ∨ s.nameByte f 0 ≠ 0 ∧ ∃ s0 dir name, s0.load dir.type = ftypeDir ∧
    dirLookup s0 dir name = .ok (.ok f, s) ∧ s.nameIs f name = true ∧ s.load f.dir = dir.addr

/-! ## The relations -/

/-- The names lead to one place only. -/
lemma Leads.unique (h : Leads s f elems g t) (h' : Leads s f elems g' t') : g = g' ∧ t = t' := by
  induction h with
  | nil =>
    cases h'
    exact ⟨rfl, rfl⟩
  | cons _ _ hlook _ ih =>
    cases h' with
    | cons _ _ hlook' h' =>
      cases hlook.symm.trans hlook'
      exact ih h'

lemma LinkTo.unique (h : LinkTo s path target t) (h' : LinkTo s path target' t') :
    target = target' ∧ t = t' := by
  obtain ⟨f, s1, isnew, hl, -, hread, hstr⟩ := h
  obtain ⟨f', s1', isnew', hl', -, hread', hstr'⟩ := h'
  obtain ⟨rfl, rfl⟩ := hl.unique hl'
  cases hread.symm.trans hread'
  exact ⟨Option.some.inj (hstr.symm.trans hstr'), rfl⟩

/-- A path to a link resolves if what is in the link does. -/
lemma LinkTo.resolves_iff (h : LinkTo s path target t) : Resolves s path ↔ Resolves t target := by
  constructor
  · intro hr
    cases hr with
    | file hl htype =>
      obtain ⟨f, s1, isnew, hl', hlnk, -, -⟩ := h
      obtain ⟨rfl, rfl⟩ := hl.unique hl'
      exact absurd hlnk htype
    | link hl hr =>
      obtain ⟨rfl, rfl⟩ := hl.unique h
      exact hr
  · exact .link h

/-- A path that resolves leads somewhere. -/
lemma Resolves.leads (h : Resolves s path) : ∃ f t, Leads s FilePtr.root (pathElems path) f t := by
  cases h with
  | file h _ => exact ⟨_, _, h⟩
  | link hl _ =>
    obtain ⟨f, s1, -, hl, -⟩ := hl
    exact ⟨f, s1, hl⟩

/-! ## Lookups -/

/-- The result of `dir_lookup` is a file with the name, or an error. -/
lemma dirLookupFrom_cases {n i : ℕ} {x : Except Word FilePtr}
    (h : dirLookupFrom s dir name n i = .ok (x, s')) :
    (∃ (f : FilePtr) (t : BlockCache), x = .ok f ∧ s' = t.store f.dir dir.addr ∧
        t.nameIs f name = true) ∨
      ∃ r, x = .error r ∧ r ≠ 0 := by
  induction n generalizing s i with
  | zero =>
    cases h
    exact .inr ⟨_, rfl, by decide⟩
  | succ n ih =>
    rw [dirLookupFrom] at h
    obtain ⟨⟨y, s1⟩, hget, h1⟩ := bind_eq_ok.mp h
    cases y with
    | error r =>
      cases h1
      refine .inr ⟨r, rfl, ?_⟩
      rcases fileGetBlock_error hget with rfl | rfl | rfl
      · decide
      · decide
      · decide
    | ok blk =>
      simp only at h1
      split at h1
      · rename_i j hfind
        cases h1
        have hname := List.find?_some hfind
        exact .inl ⟨_, s1, rfl, rfl, hname⟩
      · exact ih h1

/-- `f->f_dir` is no part of a name. -/
lemma nameByte_store_dir {k : ℕ} (hk : k < 180) :
    (s.store f.dir r).nameByte f k = s.nameByte f k := by
  have hword : (s.store f.dir r).mem f.block (f.word + k / 4) = s.mem f.block (f.word + k / 4) :=
    TwoLevel.write_of_ne (.inr (show f.word + k / 4 ≠ f.word + 45 by omega))
  unfold BlockCache.nameByte
  rw [hword]

/-- The name of what `dir_lookup` finds. -/
lemma dirLookup_found (hlen : name.length < maxnamelen)
    (h : dirLookup s dir name = .ok (.ok f, s')) :
    s'.nameIs f name = true ∧ s'.load f.dir = dir.addr := by
  rcases dirLookupFrom_cases h with ⟨f', t, hx, rfl, hname⟩ | ⟨r, hx, -⟩
  · cases hx
    refine ⟨?_, load_store_self _ _ _⟩
    unfold BlockCache.nameIs at hname ⊢
    rw [List.all_eq_true] at hname ⊢
    intro k hk
    have hlen : name.length < 128 := hlen
    have hlt : k < 180 := by
      obtain ⟨i, hi, rfl⟩ := List.mem_range'.mp hk
      omega
    rw [nameByte_store_dir hlt]
    exact hname k hk
  · cases hx

/-- A structure with a name has a first byte. -/
lemma nameByte_ne_zero (hname : IsName name) (h : s.nameIs f name = true) : s.nameByte f 0 ≠ 0 := by
  unfold BlockCache.nameIs at h
  rw [List.all_eq_true] at h
  have h0 := h 0 (List.mem_range'.mpr ⟨0, by omega, by omega⟩)
  rw [beq_iff_eq] at h0
  rw [h0]
  exact hname.head

/-! ## The loop of the walks -/

/-- **What the loop returns**: 0 and the file that the names lead to, or an error and no file if they
lead nowhere. -/
theorem walkElems_cases {d : Option FilePtr} (h : walkElems s d f elems = .ok (w, s')) :
    (w.code = 0 ∧ ∃ g, w.file = some g ∧ Leads s f elems g s') ∨
      (w.code ≠ 0 ∧ w.file = none ∧ ∀ g t, ¬ Leads s f elems g t) := by
  induction elems generalizing s d f with
  | nil =>
    cases h
    exact .inl ⟨rfl, f, rfl, .nil⟩
  | cons name rest ih =>
    rw [walkElems] at h
    split_ifs at h with hlen htype
    · cases h
      refine .inr ⟨by decide, rfl, fun g t hl => ?_⟩
      cases hl with
      | cons hlt _ _ _ => exact absurd hlen (Nat.not_le.mpr hlt)
    · cases h
      refine .inr ⟨by decide, rfl, fun g t hl => ?_⟩
      cases hl with
      | cons _ hdir _ _ => exact htype hdir
    · have hdir : s.load f.type = ftypeDir := by simpa using htype
      obtain ⟨⟨y, s1⟩, hlook, h1⟩ := bind_eq_ok.mp h
      cases y with
      | ok f1 =>
        rcases ih h1 with ⟨h0, g, hfile, hl⟩ | ⟨hne, hfile, hno⟩
        · exact .inl ⟨h0, g, hfile, .cons (Nat.lt_of_not_le hlen) hdir hlook hl⟩
        · refine .inr ⟨hne, hfile, fun g t hl => ?_⟩
          cases hl with
          | cons _ _ hlook' hl =>
            cases hlook.symm.trans hlook'
            exact hno g t hl
      | error r =>
        have hno : ∀ g t, ¬ Leads s f (name :: rest) g t := fun g t hl => by
          cases hl with
          | cons _ _ hlook' _ => cases hlook.symm.trans hlook'
        have hr : r ≠ 0 := by
          rcases dirLookupFrom_cases hlook with ⟨f1, t, hx, -⟩ | ⟨e, hx, hne⟩
          · cases hx
          · cases hx
            exact hne
        simp only at h1
        split_ifs at h1 with hlast
        · cases h1
          exact .inr ⟨hr, rfl, hno⟩
        · cases h1
          exact .inr ⟨hr, rfl, hno⟩

/-- What the names of a path lead to can be used. -/
lemma Leads.foundFile (hf : FoundFile s f) (hnames : ∀ e ∈ elems, IsName e)
    (h : Leads s f elems g t) : FoundFile t g := by
  induction h with
  | nil => exact hf
  | cons hlen htype hlook _ ih =>
    obtain ⟨hname, hdir⟩ := dirLookup_found hlen hlook
    have hbyte := nameByte_ne_zero (hnames _ List.mem_cons_self) hname
    exact ih (.inr ⟨hbyte, _, _, _, htype, hlook, hname, hdir⟩)
      fun e he => hnames e (List.mem_cons_of_mem _ he)

/-! ## `walk_path` -/

/-- The two ends of `walk_path`, and the call for a link between them. -/
lemma walkPath_cases (h : walkPath s path (depth + 1) = .ok (w, s')) :
    ((w.code ≠ 0 ∧ w.file = none ∧ ∀ g t, ¬ Leads s FilePtr.root (pathElems path) g t) ∨
      ∃ g, w.code = 0 ∧ w.file = some g ∧ Leads s FilePtr.root (pathElems path) g s' ∧
        s'.load g.type ≠ ftypeLnk) ∨
    ∃ target t w', LinkTo s path target t ∧ walkPath t target depth = .ok (w', s') ∧
      w.code = 0 ∧ w.file = w'.file := by
  rw [walkPath] at h
  obtain ⟨⟨y, s1⟩, helems, h1⟩ := bind_eq_ok.mp h
  rcases walkElems_cases helems with ⟨h0, g, hfile, hl⟩ | ⟨hne, hfile, hno⟩
  · simp only [hfile] at h1
    split_ifs at h1 with hlnk
    · obtain ⟨⟨isnew, s2⟩, hread, h2⟩ := bind_eq_ok.mp h1
      simp only at h2
      split at h2
      · cases h2
      · rename_i target htarget
        obtain ⟨⟨z, s3⟩, hwalk, h3⟩ := bind_eq_ok.mp h2
        cases h3
        exact .inr ⟨target, s2, z, ⟨g, s1, isnew, hl, hlnk, hread, htarget⟩, hwalk, h0, rfl⟩
    · cases h1
      exact .inl (.inr ⟨g, h0, hfile, hl, hlnk⟩)
  · simp only [hfile] at h1
    cases h1
    exact .inl (.inl ⟨hne, hfile, hno⟩)

/-- **`walk_path` leaves a file behind** exactly if the path resolves, and that file can be used. -/
theorem walkPath_resolves (hp : (0 : Char8) ∉ path) (h : walkPath s path depth = .ok (w, s')) :
    ((∃ f, w.file = some f) ↔ Resolves s path) ∧ ∀ f, w.file = some f → FoundFile s' f := by
  induction depth generalizing s path w with
  | zero => cases h
  | succ depth ih =>
    rcases walkPath_cases h with (⟨-, hfile, hno⟩ | ⟨g, -, hfile, hl, hlnk⟩) |
      ⟨target, t, w', hl, hwalk, -, hfile⟩
    · rw [hfile]
      refine ⟨iff_of_false (fun ⟨f, hf⟩ => by cases hf) fun hr => ?_, fun f hf => by cases hf⟩
      obtain ⟨f, t, hl⟩ := hr.leads
      exact hno f t hl
    · rw [hfile]
      refine ⟨iff_of_true ⟨g, rfl⟩ (.file hl hlnk), fun f hf => ?_⟩
      cases hf
      exact hl.foundFile (.inl rfl) (isName_pathElems hp)
    · have htarget : (0 : Char8) ∉ target := by
        obtain ⟨_, _, _, _, _, _, hstr⟩ := hl
        exact stringFrom_no_zero hstr
      obtain ⟨hiff, hfound⟩ := ih htarget hwalk
      rw [hfile]
      exact ⟨hiff.trans hl.resolves_iff.symm, hfound⟩

/-- **`walk_path` succeeds with a file**, whatever the blocks contain, exactly if the path does not
name a link that leads nowhere. In a consistent cache with clean pages the file is one of a
directory. -/
theorem walkPath_ok_iff (hp : (0 : Char8) ∉ path) (h : walkPath s path depth = .ok (w, s')) :
    (w.code = 0 → ∃ f, w.file = some f ∧ FoundFile s' f ∧
      (CacheInv s → PathClean s path depth → IsFile s'.content f)) ↔ ¬ Dangling s path := by
  obtain ⟨hiff, hfound⟩ := walkPath_resolves hp h
  constructor
  · rintro hgood ⟨target, t, hl, hno⟩
    have h0 : w.code = 0 := by
      cases depth with
      | zero => cases h
      | succ depth =>
        obtain ⟨f, s1, -, hleads, hlnk, -⟩ := id hl
        rcases walkPath_cases h with (⟨-, -, hnone⟩ | ⟨g, h0, -⟩) | ⟨-, -, -, -, -, h0, -⟩
        · exact absurd hleads (hnone f s1)
        · exact h0
        · exact h0
    obtain ⟨f, hfile, -⟩ := hgood h0
    exact hno (hl.resolves_iff.mp (hiff.mp ⟨f, hfile⟩))
  · intro hd h0
    have hr : Resolves s path := by
      cases depth with
      | zero => cases h
      | succ depth =>
        rcases walkPath_cases h with (⟨hne, -⟩ | ⟨g, -, -, hl, hlnk⟩) | ⟨target, t, w', hl, -⟩
        · exact absurd h0 hne
        · exact .file hl hlnk
        · refine hl.resolves_iff.mpr ?_
          by_contra hno
          exact hd ⟨target, t, hl, hno⟩
    obtain ⟨f, hfile⟩ := hiff.mpr hr
    refine ⟨f, hfile, hfound f hfile, fun hs hclean => ?_⟩
    exact (hs.walkPath_keepsFiles hp h hclean).2.file f hfile

/-! ## A link that leads nowhere -/

/-- The blocks of an image with one link `l` in the root (block 3). The string in the link is the
first byte of `target` (block 4). -/
def linkBlocks (target : Word) : Blocks := fun b i =>
  if b = 1 then
    if i = 0 then fsMagic else if i = 1 then 1024 else if i = 2 then 0x2F
    else if i = 34 then 4096 else if i = 35 then ftypeDir else if i = 36 then 3 else 0
  else if b = 2 then if i = 0 then 0xFFFFFFE0 else if i < 32 then 0xFFFFFFFF else 0
  else if b = 3 then
    if i = 0 then 0x6C else if i = 32 then 1 else if i = 33 then ftypeLnk
    else if i = 34 then 4 else 0
  else if b = 4 then if i = 0 then target else 0
  else 0

/-- The image in the cache. -/
def linkDisk (target : Word) : BlockCache where
  mem := linkBlocks target
  mapped := fun b => decide (b < 5)
  dirty := fun _ => false
  disk := linkBlocks target
  super := true
  bitmap := true
  grants := fun _ => true

/-- The link leads to `x`, which is not there. -/
lemma walkPath_dangling : ∃ w s', walkPath (linkDisk 0x78) [0x2F, 0x6C] 2 = .ok (w, s') ∧
    w.code = 0 ∧ w.file = none := ⟨_, _, rfl, rfl, rfl⟩

/-- The walk to the link. -/
theorem walkPath_ok_iff_link : ∃ w s', walkPath (linkDisk 0x78) [0x2F, 0x6C] 2 = .ok (w, s') ∧
    ((w.code = 0 → ∃ f, w.file = some f ∧ FoundFile s' f ∧
      (CacheInv (linkDisk 0x78) → PathClean (linkDisk 0x78) [0x2F, 0x6C] 2 →
        IsFile s'.content f)) ↔ ¬ Dangling (linkDisk 0x78) [0x2F, 0x6C]) := by
  obtain ⟨w, s', h, -, -⟩ := walkPath_dangling
  exact ⟨w, s', h, walkPath_ok_iff (by decide) h⟩

/-- **A null pointer after a success**. -/
theorem walkPath_without_file : ¬ ∀ s path depth w s', (0 : Char8) ∉ path →
    walkPath s path depth = .ok (w, s') → w.code = 0 → ∃ f, w.file = some f ∧ FoundFile s' f := by
  intro h
  obtain ⟨w, s', hwalk, h0, hnone⟩ := walkPath_dangling
  obtain ⟨f, hf, -⟩ := h _ _ _ w s' (by decide) hwalk h0
  exact Option.some_ne_none f (hf.symm.trans hnone)

end MosVolca
