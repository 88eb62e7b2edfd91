import MosVolca.Fs.Growth
import MosVolca.Fs.NameEffects

/-!
# Where a new file is found

After `file_create` the path leads to the new file, and the elements of the path before the last one
lead where they led before.

## Main definitions

* `MosVolca.NewFile` — a file with a new name in a directory.

## Main results

* `MosVolca.NewFile.walkOf` — the path of the new file.
* `MosVolca.WholeDir.newFile` — what `file_create` leaves behind is a new file.
-/

namespace MosVolca

variable {c c' c1 : Blocks} {s s' s1 : BlockCache} {f g d dir : FilePtr} {b i j k n n' : ℕ}
  {name e : List Char8} {elems xs : List (List Char8)} {w : Word}

/-- `f` is the only structure in `dir` with the name, and the files keep their types, their names and
their blocks. -/
structure NewFile (c c' : Blocks) (dir f : FilePtr) (name : List Char8) : Prop where
  type : ∀ g, IsFile c g → wordAt c' g.type = wordAt c g.type
  size : ∀ g, IsFile c g → sizeBlocksOf c g ≤ sizeBlocksOf c' g
  kept : ∀ g i b, IsFile c g → Holds c g (.data i) b → Holds c' g (.data i) b
  nameAt : ∀ g, Dirent c g → g ≠ f → ∀ k < 128, nameAt c' g k = nameAt c g k
  own : InDir c' dir f
  hasName : HasName c' f name
  only : ∀ e, InDir c' dir e → HasName c' e name → e = f
  slot : ∀ d, IsFile c d → InDir c d f → d = dir ∧ ¬ Named c f

/-! ## Lookups -/

/-- A file that is found in the first blocks of a directory is found in more of them. -/
lemma lookupFrom_mono (hle : n ≤ n')
    (hblocks : ∀ k, i ≤ k → k < i + n → ∃ b, blockOf c d k = some b ∧ blockOf c' d k = some b ∧
      ∀ j < file2blk, (HasName c' (FilePtr.entry b j) e ↔ HasName c (FilePtr.entry b j) e))
    (h : lookupFrom c d e n i = some g) : lookupFrom c' d e n' i = some g := by
  induction n generalizing i n' with
  | zero => cases h
  | succ n ih =>
    obtain ⟨m, rfl⟩ : ∃ m, n' = m + 1 := ⟨n' - 1, by omega⟩
    obtain ⟨b, hb, hb', hnames⟩ := hblocks i le_rfl (by omega)
    have hfind : findEntry c' b e = findEntry c b e := by
      unfold findEntry
      refine List.find?_congr fun j hj => decide_eq_decide.mpr (hnames j ?_)
      simpa [List.mem_range'] using hj
    rw [lookupFrom, hb, Option.bind_some] at h
    rw [lookupFrom, hb', Option.bind_some, hfind]
    cases hf : findEntry c b e with
    | some j =>
      rw [hf, Option.map_some] at h
      exact h
    | none =>
      rw [hf, Option.map_none] at h
      exact ih (by omega) (fun k hk hlt => hblocks k (by omega) (by omega)) h

namespace NewFile

/-- A file that was found is still found. -/
lemma lookup (h : NewFile c c' dir f name) (hw : Whole c) (hname : IsName name)
    (hno : name ∉ namesOf c dir) (hlen : name.length < maxnamelen) (hd : IsFile c d)
    (ht : wordAt c d.type = ftypeDir) (he : IsName e) (hle : e.length < maxnamelen)
    (hl : MosVolca.lookup c d e = some g) : MosVolca.lookup c' d e = some g := by
  have hlen' : e.length < 128 := hle
  refine lookupFrom_mono (h.size d hd) (fun k _ hk => ?_) hl
  obtain ⟨b, hold⟩ := hw d hd ht k (by omega)
  refine ⟨b, blockOf_eq_some.mpr hold, blockOf_eq_some.mpr (h.kept d k b hd hold), fun j hj => ?_⟩
  have hin : InDir c d (FilePtr.entry b j) := ⟨b, j, ⟨ht, k, by omega, hold⟩, hj, rfl⟩
  by_cases hf : FilePtr.entry b j = f
  · -- the structure of the new file had no name, and its name is another one
    rw [hf] at hin ⊢
    obtain ⟨rfl, hunnamed⟩ := h.slot d hd hin
    refine iff_of_false (fun hc => ?_) fun hc => hunnamed (hc.named he)
    obtain rfl := hc.unique h.hasName he.no_zero hname.no_zero
    obtain ⟨⟨b', j', hb', hj', rfl⟩, hg⟩ := lookupFrom_dirent ht (by omega) hl
    exact hno ⟨he, hle, _, ⟨b', j', hb', hj', rfl⟩, hg⟩
  · unfold HasName
    refine forall₂_congr fun m hm => ?_
    rw [h.nameAt _ (hin.dirent hd.dirent) hf m (by omega)]

/-- The new file is found. -/
lemma lookup_self (h : NewFile c c' dir f name) (hname : IsName name)
    (hlen : name.length < maxnamelen) : MosVolca.lookup c' dir name = some f := by
  have hin := h.own
  cases hl : MosVolca.lookup c' dir name with
  | none => exact absurd ⟨hname, hlen, f, hin, h.hasName⟩ (not_mem_namesOf hl)
  | some g =>
    obtain ⟨b, j, hb, hj, rfl⟩ := hin
    obtain ⟨hg, hgn⟩ := lookupFrom_dirent hb.1 (by omega) hl
    rw [h.only g hg hgn]

/-- **The path of the new file** leads to it. -/
theorem walkOf (h : NewFile c c' dir f name) (hw : Whole c) (hname : IsName name)
    (hno : name ∉ namesOf c dir) (hlen : name.length < maxnamelen)
    (ht : wordAt c dir.type = ftypeDir) {d' : Option FilePtr} (hg : IsFile c g)
    (hnames : ∀ e ∈ xs, IsName e) (hfile : (MosVolca.walkOf c d' g xs).file = some dir) :
    (MosVolca.walkOf c' d' g (xs ++ [name])).file = some f := by
  induction xs generalizing g d' with
  | nil =>
    obtain rfl := Option.some.inj hfile
    rw [List.nil_append, MosVolca.walkOf, if_neg (Nat.not_le.mpr hlen), h.type g hg,
      if_neg (not_not_intro ht), h.lookup_self hname hlen]
    rfl
  | cons e rest ih =>
    rw [MosVolca.walkOf] at hfile
    by_cases hle : e.length ≥ maxnamelen
    · rw [if_pos hle] at hfile
      cases hfile
    rw [if_neg hle] at hfile
    by_cases htg : wordAt c g.type = ftypeDir
    · rw [if_neg (not_not_intro htg)] at hfile
      have he := hnames e List.mem_cons_self
      cases hl : MosVolca.lookup c g e with
      | none =>
        rw [hl] at hfile
        simp only at hfile
        split_ifs at hfile
      | some g' =>
        rw [hl] at hfile
        rw [List.cons_append, MosVolca.walkOf, if_neg hle, h.type g hg, if_neg (not_not_intro htg),
          h.lookup hw hname hno hlen hg htg he (Nat.lt_of_not_le hle) hl]
        exact ih (lookup_isFile hg.dirent htg he hl) (fun x hx => hnames x (List.mem_cons_of_mem e hx))
          hfile
    · rw [if_pos htg] at hfile
      cases hfile

/-- The new file becomes a directory. -/
lemma setType (h : NewFile c c' dir f name) (hc : Consistent c') (hf : ¬ IsFile c f)
    (hfd : Dirent c' f) (hdd : Dirent c' dir) (hdir : IsFile c dir)
    (hkeep : ∀ g, Dirent c g → Dirent c' g) (hlen : name.length < maxnamelen) :
    NewFile c (putWord c' f.type w) dir f name := by
  have hfield : HasField c' f (.head 33) := (by decide : 33 < 64)
  have hword : ∀ g k, Dirent c' g → k < 64 → (g ≠ f ∨ k ≠ 33) →
      wordAt (putWord c' f.type w) ⟨g.block, g.word + k⟩ = wordAt c' ⟨g.block, g.word + k⟩ := by
    intro g k hg hk hne
    refine wordAt_putWord_of_ne fun he => ?_
    obtain ⟨rfl, hx⟩ := hc.place_inj hg hfd (x := .head k) hk hfield he
    rw [Field.head.injEq] at hx
    exact hne.elim (fun h => h rfl) fun h => h hx
  have hne : ∀ g, IsFile c g → g ≠ f := fun g hg he => hf (he ▸ hg)
  have hin : ∀ e, InDir (putWord c' f.type w) dir e ↔ InDir c' dir e := by
    intro e
    have hag : Agrees c' (putWord c' f.type w) dir :=
      hc.agrees_of_field hdd hfd hfield (.inl (hne dir hdir))
    unfold InDir
    simp only [hag.dirBlock_iff]
  have hnameAt : ∀ g, Dirent c' g → ∀ k < 128,
      MosVolca.nameAt (putWord c' f.type w) g k = MosVolca.nameAt c' g k := fun g hg k hk =>
    congrArg (fun x : Word => (x >>> (8 * (k % 4))).setWidth 8)
      (hword g (k / 4) hg (by omega) (.inr (by omega)))
  have hhas : ∀ e, Dirent c' e → (HasName (putWord c' f.type w) e name ↔ HasName c' e name) := by
    intro e he
    have hlen : name.length < 128 := hlen
    unfold HasName
    refine forall₂_congr fun k hk => ?_
    rw [hnameAt e he k (by omega)]
  refine ⟨fun g hg => ?_, fun g hg => ?_, fun g i b hg hold => ?_, fun g hg hgf k hk => ?_,
    (hin f).mpr h.own, (hhas f hfd).mpr h.hasName, fun e he hname => ?_, h.slot⟩
  · rw [← h.type g hg]
    exact hword g 33 (hkeep g hg.dirent) (by decide) (.inl (hne g hg))
  · have hsize : wordAt (putWord c' f.type w) g.size = wordAt c' g.size :=
      hword g 32 (hkeep g hg.dirent) (by decide) (.inr (by decide))
    rw [show sizeBlocksOf (putWord c' f.type w) g = sizeBlocksOf c' g by
      rw [sizeBlocksOf, hsize, sizeBlocksOf]]
    exact h.size g hg
  · exact (hc.holds_putHead (k := 33) (hkeep g hg.dirent) hfd (by decide)).mpr (h.kept g i b hg hold)
  · rw [hnameAt g (hkeep g hg) k hk, h.nameAt g hg hgf k hk]
  · have he := (hin e).mp he
    exact h.only e he ((hhas e (he.dirent hdd)).mp hname)

end NewFile

namespace WholeDir

/-- **A new file**: `dir_alloc_file` finds the structure, and it gets the name. -/
theorem newFile (h : WholeDir s dir) (hd : IsFile s.content dir)
    (hclean : AllocFileClean s dir (s.sizeBlocks dir) 0)
    (halloc : dirAllocFile s dir = .ok (.ok f, s')) (hname : IsName name)
    (hlen : name.length < maxnamelen) (hno : name ∉ namesOf s.content dir) :
    NewFile s.content (s'.setName f name).content dir f name ∧ CacheInv (s'.setName f name) ∧
      InCache (s'.setName f name) f ∧ ¬ IsFile s.content f ∧
      (∀ g, Dirent s.content g → Dirent (s'.setName f name).content g) ∧
      wordAt (s'.setName f name).content f.type = wordAt s'.content f.type := by
  obtain ⟨hs', -, hfound⟩ := h.inv.dirAllocFile hd.dirent h.mapped h.type halloc hclean
  obtain ⟨hsame, hnew⟩ := h.inv.dirAllocFile_names hd.dirent h.mapped h.type halloc hclean
  have hkept := fun g hg' => h.dirAllocFile_kept (g := g) hclean halloc hg'
  obtain ⟨hfd, hfm⟩ := hfound f rfl
  obtain ⟨hin, hunnamed⟩ := hnew f rfl
  have hdd := hsame.dirent dir hd.dirent
  obtain ⟨hiff, hdir, hself, hnameAt, hset, -⟩ := hs'.setName_names hdd hin hfm hunnamed hname hlen
  obtain ⟨hs1, hf1, -⟩ := hs'.setName ⟨hfd, hfm⟩ hlen
  have hag := fun g hg' => hs'.setName_agrees (g := g) hfd hfm hlen hg'
  have hlen' : name.length < 128 := hlen
  -- the structure had no name before
  have hslot : Dirent s.content f → ¬ Named s.content f := fun hf0 hn0 =>
    hunnamed ((hsame.named_iff hf0).mpr hn0)
  have hnot : ¬ IsFile s.content f := by
    rintro (rfl | ⟨hf0, hn0⟩)
    · exact hin.ne_root rfl
    · exact hslot hf0 hn0
  refine ⟨⟨fun g hg' => ?_, fun g hg' => ?_, fun g i b hg' hold => ?_, fun g hg' hgf k hk => ?_,
    (hdir f).mpr hin, hself, fun e he hen => ?_, fun d hd' hdf => ⟨?_, hslot (hdf.dirent hd'.dirent)⟩⟩,
    hs1, hf1, hnot, fun g hg' => (hiff g).mpr (hsame.dirent g hg'), ?_⟩
  · rw [(hag g (hsame.dirent g hg'.dirent)).type, (hkept g hg'.dirent).1]
  · rw [show sizeBlocksOf (s'.setName f name).content g = sizeBlocksOf s'.content g by
      rw [sizeBlocksOf, (hag g (hsame.dirent g hg'.dirent)).size, sizeBlocksOf]]
    exact (hkept g hg'.dirent).2.1
  · exact (hag g (hsame.dirent g hg'.dirent)).holds_iff.mpr ((hkept g hg'.dirent).2.2 i b hold)
  · rw [hnameAt g (hsame.dirent g hg') hgf k hk, hsame.nameAt g hg' k hk]
  · by_contra hef
    have he := (hdir e).mp he
    refine hno ?_
    rw [← hsame.names dir hd.dirent]
    refine ⟨hname, hlen, e, he, fun k hk => ?_⟩
    rw [← hnameAt e (he.dirent hdd) hef k (by omega)]
    exact hen k hk
  · obtain ⟨b, j, ⟨ht', i, hi, hold⟩, hj, rfl⟩ := hdf
    have hin' : InDir s'.content d (FilePtr.entry b j) :=
      ⟨b, j, ⟨(hkept d hd'.dirent).1.trans ht', i, hi.trans_le (hkept d hd'.dirent).2.1,
        (hkept d hd'.dirent).2.2 i b hold⟩, hj, rfl⟩
    exact hs'.consistent.inDir_unique (hsame.dirent d hd'.dirent) hdd hin' hin
  · exact hs'.setName_place hfd hfm hlen hfd (x := .head 33) (by decide : 33 < 64) fun _ m hm he => by
      rw [Field.head.injEq] at he
      omega

end WholeDir

end MosVolca
