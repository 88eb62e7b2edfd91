import MosVolca.Fs.CacheCases
import MosVolca.Fs.OpenFiles

/-!
# What a sync leaves on the disk

`fs_sync` writes the blocks of the cache that have `PTE_DIRTY` set, and that bit is set by
`FSREQ_DIRTY` alone. What the server itself changes, in the structures of files, in the blocks of
directories, in indirect blocks and in the bitmap, is not marked, so a sync passes over it.

## Main definitions

* `MosVolca.Durable` — the disk holds what the cache holds.
* `MosVolca.Marked` — the blocks that `fs_sync` writes.

## Main results

* `MosVolca.fsSync_disk` — the disk after `fs_sync`.
* `MosVolca.durable_iff` — when a sync is durable.
* `MosVolca.created_file_lost` — a file that is created before a sync and is not on the disk.
-/

namespace MosVolca

/-- **The disk holds what the cache holds.** -/
def Durable (c : BlockCache) : Prop := ∀ b, c.mapped b = true → c.disk b = c.mem b

/-- `fs_sync` writes the block: it is in the cache, its page has `PTE_DIRTY` and it is a block of
the file system. -/
def Marked (c : BlockCache) (b : ℕ) : Prop :=
  c.mapped b = true ∧ c.dirty b = true ∧ b < c.nblocks

variable {c c' : BlockCache} {s s' : FileServer} {b depth : ℕ} {envid : Word}
  {events : List FsEvent}

/-- A server that starts from the disk sees what this server sees. -/
lemma Durable.content (h : Durable c) : c.content = c.disk := by
  funext b
  cases hm : c.mapped b with
  | true => rw [content_of_mapped hm, h b hm]
  | false => rw [content_of_not_mapped hm]

/-- `block_is_dirty`. -/
lemma blockIsDirty_eq {m : Bool} (h : blockIsDirty c b = .ok m) :
    m = (c.mapped b && c.dirty b) := by
  obtain ⟨va, hva, h1⟩ := bind_eq_ok.mp h
  obtain rfl := diskaddr_eq hva
  exact (Except.ok.inj h1).symm

/-- What a round of `fs_sync` leaves alone. -/
structure SameCache (c c' : BlockCache) : Prop where
  mem : c'.mem = c.mem
  mapped : c'.mapped = c.mapped
  dirty : c'.dirty = c.dirty

/-- One round of `fs_sync`: the block is written if it is dirty. -/
lemma syncBlock_cases
    (h : (do if ← blockIsDirty c b then writeBlock c b else pure c) = .ok c') :
    SameCache c c' ∧ ∀ x, c'.disk x =
      if x = b ∧ c.mapped b = true ∧ c.dirty b = true then c.mem x else c.disk x := by
  obtain ⟨m, hm, h1⟩ := bind_eq_ok.mp h
  obtain rfl := blockIsDirty_eq hm
  split_ifs at h1 with hd
  · rw [Bool.and_eq_true] at hd
    unfold writeBlock blockIsMapped at h1
    obtain ⟨m, hm', h2⟩ := bind_eq_ok.mp h1
    obtain ⟨va, hva, h3⟩ := bind_eq_ok.mp hm'
    obtain rfl := diskaddr_eq hva
    obtain rfl := Except.ok.inj h3
    rw [hd.1] at h2
    obtain rfl := Except.ok.inj h2
    refine ⟨⟨rfl, rfl, rfl⟩, fun x => ?_⟩
    by_cases hx : x = va
    · subst hx
      rw [if_pos ⟨rfl, hd⟩]
      funext j
      simp [ideWrite]
    · rw [if_neg fun h => hx h.1]
      funext j
      simp [ideWrite, hx]
  · obtain rfl := Except.ok.inj h1
    refine ⟨⟨rfl, rfl, rfl⟩, fun x => ?_⟩
    rw [Bool.and_eq_true] at hd
    rw [if_neg fun h => hd h.2]

/-- The loop of `fs_sync`. -/
lemma syncLoop_cases {l : List ℕ}
    (h : l.foldlM (fun c b => do if ← blockIsDirty c b then writeBlock c b else pure c) c = .ok c') :
    SameCache c c' ∧ ∀ x, c'.disk x =
      if x ∈ l ∧ c.mapped x = true ∧ c.dirty x = true then c.mem x else c.disk x := by
  induction l generalizing c with
  | nil =>
    obtain rfl := Except.ok.inj h
    exact ⟨⟨rfl, rfl, rfl⟩, fun x => by simp⟩
  | cons b l ih =>
    rw [List.foldlM_cons] at h
    obtain ⟨c1, hb, hl⟩ := bind_eq_ok.mp h
    obtain ⟨hs1, hd1⟩ := syncBlock_cases hb
    obtain ⟨hs2, hd2⟩ := ih hl
    refine ⟨⟨hs2.mem.trans hs1.mem, hs2.mapped.trans hs1.mapped, hs2.dirty.trans hs1.dirty⟩, ?_⟩
    intro x
    rw [hd2, hd1, hs1.mem, hs1.mapped, hs1.dirty]
    by_cases hx : x = b
    · subst hx
      by_cases hm : c.mapped x = true ∧ c.dirty x = true
      · simp [hm]
      · simp [hm]
    · simp [hx]

/-- **The disk after `fs_sync`**: the marked blocks are written, and nothing else changes. -/
theorem fsSync_disk (h : fsSync c = .ok c') :
    SameCache c c' ∧ (∀ b, Marked c b → c'.disk b = c.mem b) ∧
      ∀ b, ¬ Marked c b → c'.disk b = c.disk b := by
  obtain ⟨hs, hd⟩ := syncLoop_cases h
  have hmem : ∀ b, b ∈ List.range' 0 c.nblocks ↔ b < c.nblocks := by
    intro b
    rw [List.mem_range'_1]
    omega
  refine ⟨hs, fun b hb => ?_, fun b hb => ?_⟩
  · rw [hd, if_pos ⟨(hmem b).mpr hb.2.2, hb.1, hb.2.1⟩]
  · rw [hd, if_neg fun h => hb ⟨h.2.1, h.2.2, (hmem b).mp h.1⟩]

/-- **When a sync is durable.** A run of the server ends in `s`, and then `FSREQ_SYNC` is served: the
disk then holds what the cache holds exactly if every block of the cache that differed from the
disk in `s` was marked. -/
theorem durable_iff {cache : BlockCache} (hrun : fsRun depth (serveInit cache) events = .ok s)
    (hsync : fsRun depth (serveInit cache) (events ++ [.request envid .sync]) = .ok s') :
    Durable s'.cache ↔
      ∀ b, s.cache.mapped b = true → s.cache.mem b ≠ s.cache.disk b → Marked s.cache b := by
  rw [fsRun, List.foldlM_append] at hsync
  obtain ⟨s1, h1, h2⟩ := bind_eq_ok.mp hsync
  obtain rfl := Except.ok.inj (hrun.symm.trans h1)
  rw [List.foldlM_cons] at h2
  obtain ⟨s2, h3, h4⟩ := bind_eq_ok.mp h2
  obtain rfl := Except.ok.inj h4
  obtain ⟨c, hc, h5⟩ := bind_eq_ok.mp h3
  obtain rfl := Except.ok.inj h5
  obtain ⟨hsame, hmarked, hother⟩ := fsSync_disk hc
  show (∀ b, c.mapped b = true → c.disk b = c.mem b) ↔ _
  rw [hsame.mapped, hsame.mem]
  constructor
  · intro h b hm hne
    by_contra hb
    exact hne ((h b hm).symm.trans (hother b hb))
  · intro h b hm
    by_cases hb : Marked s.cache b
    · exact hmarked b hb
    · by_contra hne
      rw [hother b hb] at hne
      exact hb (h b hm fun he => hne he.symm)

/-! ## A file that is lost -/

/-- A client creates `a`. -/
def createA : List FsEvent := [.request 0x800#32 (.openFile [0x61] oCreat)]

/-- Whether the super block is in the cache, and the size of the root in the cache and on the disk,
after a run from an empty file system. -/
def rootSizes (events : List FsEvent) : Kernel (Bool × Word × Word) := do
  let cache ← fsInit (BlockCache.off emptyDisk fun _ => true)
  let s ← fsRun 4 (serveInit cache) events
  pure (s.cache.mapped 1, s.cache.mem 1 34, s.cache.disk 1 34)

lemma rootSizes_createA :
    rootSizes (createA ++ [.request 0x800#32 .sync]) = .ok (true, 4096, 0) := by
  decide +kernel

lemma createA_run : ∃ cache s s', fsInit (BlockCache.off emptyDisk fun _ => true) = .ok cache ∧
    fsRun 4 (serveInit cache) createA = .ok s ∧
    fsRun 4 (serveInit cache) (createA ++ [.request 0x800#32 .sync]) = .ok s' ∧
    s'.cache.mapped 1 = true ∧ s'.cache.mem 1 34 = 4096 ∧ s'.cache.disk 1 34 = 0 := by
  obtain ⟨cache, hinit, h1⟩ := bind_eq_ok.mp rootSizes_createA
  obtain ⟨s', hsync, h2⟩ := bind_eq_ok.mp h1
  simp only [pure_eq_ok, Except.ok.injEq, Prod.mk.injEq] at h2
  have hrun := hsync
  rw [fsRun, List.foldlM_append] at hrun
  obtain ⟨s, hrun, -⟩ := bind_eq_ok.mp hrun
  exact ⟨cache, s, s', hinit, hrun, hsync, h2⟩

/-- The creation of `a`. -/
theorem durable_iff_createA : ∃ cache s s', fsRun 4 (serveInit cache) createA = .ok s ∧
    fsRun 4 (serveInit cache) (createA ++ [.request 0x800#32 .sync]) = .ok s' ∧
    (Durable s'.cache ↔
      ∀ b, s.cache.mapped b = true → s.cache.mem b ≠ s.cache.disk b → Marked s.cache b) := by
  obtain ⟨cache, s, s', -, hrun, hsync, -⟩ := createA_run
  exact ⟨cache, s, s', hrun, hsync, durable_iff hrun hsync⟩

/-- **A file that is lost**: the root has grown by a block for the entry of `a`, and after the sync
its size on the disk is still 0. -/
theorem created_file_lost : ∃ cache s,
    fsInit (BlockCache.off emptyDisk fun _ => true) = .ok cache ∧
      fsRun 4 (serveInit cache) (createA ++ [.request 0x800#32 .sync]) = .ok s ∧
      ¬ Durable s.cache := by
  obtain ⟨cache, -, s, hinit, -, hsync, hm, hmem, hdisk⟩ := createA_run
  refine ⟨cache, s, hinit, hsync, fun h => ?_⟩
  rw [h 1 hm, hmem] at hdisk
  exact absurd hdisk (by decide)

end MosVolca
