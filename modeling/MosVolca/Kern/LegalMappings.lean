import MosVolca.Kern.Permission
import MosVolca.Kern.RunQueue

/-!
# Where pages are mapped

The system calls that map a page check the address with `is_illegal_va`, and `sys_ipc_recv` checks
the address for the page of a message; its comment says that a page is received only if that
address is not 0. `sys_ipc_try_send` looks at its own `srcva` only, so a page that is sent to an
environment that wants none is mapped at 0. This file proves that mappings stay between `UTEMP`
and `UTOP` in the runs without such a message.

## Main definitions

* `MosVolca.LegalPages` — every user page is mapped between `UTEMP` and `UTOP`.
* `MosVolca.MappingEntry` — the entries that map and unmap pages, and those that switch.
* `MosVolca.KeepsLegal` — the condition under which an entry keeps mappings legal.

## Main results

* `MosVolca.LegalSpaces.step` — an entry that meets the condition keeps mappings legal.
* `MosVolca.mappings_legal` — mappings are legal in every state of a run.
-/

namespace MosVolca

variable {M : Machine} {k k' k1 : Kern} {s s' : PhysMem} {D K H : Finset ℕ} {d pp n : ℕ}
  {e : EnvPtr} {a : Entry} {asid r va perm : Word} {o : Option Word} {tf : Trapframe}

/-- Below `UTOP`, every environment in use has valid entries for addresses from `UTEMP` on only. -/
def LegalPages (k : Kern) : Prop :=
  ∀ e, (k.envs e).status ≠ .free → ∀ va, va < utop →
    translate k.pm (k.envs e).pgdir va ≠ none → utemp ≤ va

/-- The entries that map and unmap pages, with permission arguments below 2^12, and those that
switch to another environment. -/
def MappingEntry : Entry → Prop
  | .memAlloc _ _ perm | .memMap _ _ _ _ perm | .ipcTrySend _ _ _ perm => perm < 4096#32
  | .memUnmap _ _ | .ipcRecv _ | .timer | .yield => True
  | _ => False

/-- The condition under which an entry keeps mappings legal: a page that is shared can take another
reference, and no page is sent to an environment that receives at 0. -/
def KeepsLegal (M : Machine) (D : Finset ℕ) (k : Kern) : Entry → Prop
  | .memMap srcid srcva dstid dstva _ => isIllegalVa srcva = false → isIllegalVa dstva = false →
    ∀ src dst pp pte, envid2env k srcid true = .ok (.ok (some src)) →
      envid2env k dstid true = .ok (.ok (some dst)) →
      pageLookup M k.pm (k.envs src).pgdir srcva = .ok (some (pp, pte)) →
        RoomForRef k.pm D (k.envs dst).pgdir dstva pp
  | .ipcTrySend envid _ srcva _ => srcva ≠ 0 → isIllegalVa srcva = false →
    ∀ e cur pp pte, envid2env k envid false = .ok (.ok (some e)) → (k.envs e).ipcRecving ≠ 0 →
      k.curenv = some cur → pageLookup M k.pm (k.envs cur).pgdir srcva = .ok (some (pp, pte)) →
        (k.envs e).ipcDstva ≠ 0 ∧ RoomForRef k.pm D (k.envs e).pgdir (k.envs e).ipcDstva pp
  | _ => True

/-- The invariant: the pages are accounted for and mapped at legal addresses, and an environment
that waits for a message receives at a legal address or at 0. -/
structure LegalSpaces (M : Machine) (D K : Finset ℕ) (k : Kern) : Prop
    extends KernAccounting M k D K where
  legal : LegalPages k
  recv : ∀ e, (k.envs e).ipcRecving ≠ 0 → (k.envs e).ipcDstva = 0 ∨ utemp ≤ (k.envs e).ipcDstva

/-! ## Addresses -/

lemma utemp_le_of_vpn {va va' : Word} (h : vpn va' = vpn va) (hva : utemp ≤ va) : utemp ≤ va' := by
  have h1 := vpn_eq_div va
  have h2 := vpn_eq_div va'
  have ht := utemp_toNat
  rw [BitVec.le_def] at hva ⊢
  omega

lemma legal_bounds (h : isIllegalVa va = false) : utemp ≤ va ∧ va < utop := by
  simp only [isIllegalVa, Bool.or_eq_false_iff, decide_eq_false_iff_not] at h
  exact ⟨BitVec.not_lt.mp h.1, BitVec.not_le.mp h.2⟩

/-- The address that `sys_ipc_recv` notes: 0, or a legal one. -/
lemma recv_bounds (h : ¬ (va ≠ 0 ∧ isIllegalVa va = true)) : va < utop ∧ (va = 0 ∨ utemp ≤ va) := by
  by_cases h0 : va = 0
  · exact ⟨by rw [h0]; decide, Or.inl h0⟩
  · obtain ⟨hlow, hlt⟩ := legal_bounds (Bool.eq_false_iff.mpr fun hill => h ⟨h0, hill⟩)
    exact ⟨hlt, Or.inr hlow⟩

/-! ## One entry -/

section Memory

variable (h : LegalSpaces M D K k)

include h

/-- Only the memory changes: new user translations are at legal addresses. -/
lemma LegalSpaces.changeMem {pm : PhysMem} {K' : Finset ℕ} (hp : PageAccounting M pm D K' ∅)
    (ht : ∀ d ∈ D, ∀ va, va < utop → translate pm d va ≠ none →
      utemp ≤ va ∨ translate k.pm d va ≠ none) : LegalSpaces M D K' { k with pm := pm } where
  pages := hp
  dir := h.dir
  cur := h.cur
  dstva := h.dstva
  legal e he va hva hm := (ht _ (h.dir e he) va hva hm).elim id (h.legal e he va hva)
  recv := h.recv

/-- `page_insert` at a legal address of an environment in use. -/
lemma LegalSpaces.pageInsert {pm : PhysMem} (hd : d ∈ D) (hva : utemp ≤ va) (hva' : va < utop)
    (hins : Insertable M (pdx utop) k.pm D K pp) (hge : M.bootPages ≤ pp)
    (hperm : perm < 4096#32) (hroom : RoomForRef k.pm D d va pp)
    (hr : MosVolca.pageInsert M k.pm d asid pp va perm = .ok (r, pm)) :
    LegalSpaces M D K { k with pm := pm } := by
  have hi := pdx_lt_of_lt_utop hva'
  rcases h.pages.pageInsert_result hd hi hins hge hperm hroom hr with ⟨-, rfl⟩ | ⟨-, hp, ht⟩
  · exact h.changeMem (h.pages.tlbInvalidate _ _) fun _ _ _ _ hm => Or.inr hm
  · refine h.changeMem (by simpa using hp) fun d' hd' va' hlt hm => ?_
    rw [ht d' hd' va' (pdx_lt_of_lt_utop hlt)] at hm
    by_cases hv : d' = d ∧ vpn va' = vpn va
    · exact Or.inl (utemp_le_of_vpn hv.2 hva)
    · rw [if_neg hv] at hm
      exact Or.inr hm

/-- `sys_mem_alloc` maps the new page legally. -/
lemma LegalSpaces.sysMemAlloc {envid : Word} (hperm : perm < 4096#32)
    (hs : sysMemAlloc M k envid va perm = .ok (r, k')) : ∃ K', LegalSpaces M D K' k' := by
  rcases sysMemAlloc_cases hs with ⟨-, rfl⟩ | ⟨e, pp, pm1, pm', hva, hid, hp, hins, rfl⟩
  · exact ⟨K, h⟩
  obtain ⟨hlow, hlt⟩ := legal_bounds hva
  have hi := pdx_lt_of_lt_utop hlt
  obtain ⟨h1, -, htr⟩ := h.pages.pageAlloc hp
  have hmem : pp ∈ insert pp (∅ : Finset ℕ) := Finset.mem_insert_self pp ∅
  have hheld := h1.held pp hmem
  have herase : (insert pp (∅ : Finset ℕ)).erase pp = ∅ := by simp
  have hroom : RoomForRef pm1 D (k.envs e).pgdir va pp := by
    have h0 : pageRefs pm1 D pp = 0 := hheld.2.2
    exact Or.inr (by rw [h0]; decide)
  rcases h1.pageInsert_result (h.dir_mem hid) hi (h1.insertable_of_held hmem) hheld.1.1 hperm hroom
    hins with ⟨-, rfl⟩ | ⟨-, hp', ht⟩
  · -- the new page is lost
    refine ⟨insert pp K, h.changeMem ?_ fun d' hd' va' hlt' hm => Or.inr ?_⟩
    · have hk := (h1.keep hmem).tlbInvalidate (k.envs e).asid va
      rwa [herase] at hk
    · rwa [← htr d' hd' va' (pdx_lt_of_lt_utop hlt')]
  · refine ⟨K, h.changeMem (by rwa [herase] at hp') fun d' hd' va' hlt' hm => ?_⟩
    rw [ht d' hd' va' (pdx_lt_of_lt_utop hlt')] at hm
    by_cases hv : d' = (k.envs e).pgdir ∧ vpn va' = vpn va
    · exact Or.inl (utemp_le_of_vpn hv.2 hlow)
    · rw [if_neg hv, htr d' hd' va' (pdx_lt_of_lt_utop hlt')] at hm
      exact Or.inr hm

/-- `sys_mem_map` makes a legal mapping. -/
lemma LegalSpaces.sysMemMap {srcid srcva dstid dstva : Word} (hperm : perm < 4096#32)
    (hk : KeepsLegal M D k (.memMap srcid srcva dstid dstva perm))
    (hs : sysMemMap M k srcid srcva dstid dstva perm = .ok (r, k')) : LegalSpaces M D K k' := by
  rcases sysMemMap_cases hs with
    ⟨-, rfl⟩ | ⟨src, dst, pp, pte, pm', hsva, hdva, hsrc, hdst, hl, hins, rfl⟩
  · exact h
  obtain ⟨hi1, hge⟩ := h.pages.insertable_of_lookup (h.dir_mem hsrc) (pdx_of_legal hsva) hl
  exact h.pageInsert (h.dir_mem hdst) (legal_bounds hdva).1 (legal_bounds hdva).2 hi1 hge hperm
    (hk hsva hdva src dst pp pte hsrc hdst hl) hins

/-- `sys_mem_unmap` makes no mapping. -/
lemma LegalSpaces.sysMemUnmap {envid : Word} (hs : sysMemUnmap M k envid va = .ok (r, k')) :
    LegalSpaces M D K k' := by
  rcases sysMemUnmap_cases hs with ⟨-, rfl⟩ | ⟨e, pm', hva, hid, hr, -, rfl⟩
  · exact h
  have hd := h.dir_mem hid
  have hi := pdx_of_legal hva
  refine h.changeMem (h.pages.pageRemove hd hi hr) fun d' hd' va' hlt hm => Or.inr ?_
  rw [h.pages.translate_pageRemove hd hi hr hd' (pdx_lt_of_lt_utop hlt)] at hm
  split_ifs at hm
  · exact absurd rfl hm
  · exact hm

end Memory

/-- The environments change, but for page directories, and no environment becomes free or leaves
the free list. -/
lemma LegalSpaces.changeEnvs (h : LegalSpaces M D K k) (hpm : k'.pm = k.pm)
    (hdir : ∀ e, (k'.envs e).pgdir = (k.envs e).pgdir)
    (hst : ∀ e, (k'.envs e).status ≠ .free ↔ (k.envs e).status ≠ .free)
    (hcur : ∀ e, k'.curenv = some e → (k.envs e).status ≠ .free)
    (hrecv : ∀ e, (k'.envs e).ipcRecving ≠ 0 → (k'.envs e).ipcDstva < utop ∧
      ((k'.envs e).ipcDstva = 0 ∨ utemp ≤ (k'.envs e).ipcDstva)) : LegalSpaces M D K k' where
  pages := hpm ▸ h.pages
  dir e he := hdir e ▸ h.dir e ((hst e).mp he)
  cur e he := (hst e).mpr (hcur e he)
  dstva e he := (hrecv e he).1
  legal e he va hva hm := by
    rw [hdir, hpm] at hm
    exact h.legal e ((hst e).mp he) va hva hm
  recv e he := (hrecv e he).2

/-- A switch maps nothing. -/
lemma LegalSpaces.dispatched (h : LegalSpaces M D K k) (hd : Dispatched k k' e) :
    LegalSpaces M D K k' := by
  refine h.changeEnvs hd.pm (fun x => ?_) (fun x => by rw [hd.status x]) (fun x hx => ?_)
    fun x hx => ?_
  · obtain ⟨tf, runs, hx⟩ := hd.envs x
    rw [hx]
  · obtain rfl : e = x := by simpa [hd.cur] using hx
    rw [hd.runnable]
    decide
  · obtain ⟨tf, runs, hy⟩ := hd.envs x
    rw [hy] at hx ⊢
    exact ⟨h.dstva x hx, h.recv x hx⟩

/-- `sys_ipc_recv` notes a legal address, or 0. -/
lemma LegalSpaces.sysIpcRecv {dstva : Word} (h : LegalSpaces M D K k)
    (hs : sysIpcRecv k dstva = .ok (o, k')) : LegalSpaces M D K k' := by
  rcases sysIpcRecv_cases hs with ⟨-, rfl⟩ | ⟨cur, q, hva, -, hc, -, hsched⟩
  · exact h
  obtain ⟨c, hd⟩ := schedule_dispatched hsched
  refine LegalSpaces.dispatched ?_ hd
  refine h.changeEnvs rfl (Kern.forall_waiting (P := fun x y => y.pgdir = (k.envs x).pgdir) rfl
    fun _ _ => rfl) (fun x => not_congr (Kern.waiting_free_iff (h.cur cur hc) dstva q x)) h.cur ?_
  exact Kern.forall_waiting (P := fun _ y => y.ipcRecving ≠ 0 → y.ipcDstva < utop ∧
    (y.ipcDstva = 0 ∨ utemp ≤ y.ipcDstva)) (fun _ => recv_bounds hva)
      fun x _ hx => ⟨h.dstva x hx, h.recv x hx⟩

/-- The receiver of a message stays in use and waits no more. -/
lemma LegalSpaces.received (h : LegalSpaces M D K k) (he : (k.envs e).status ≠ .free)
    (cur : EnvPtr) (value perm : Word) (q : TailQueue.TailQ EnvPtr) :
    LegalSpaces M D K { k.received e cur value perm with envSchedList := q } := by
  refine h.changeEnvs rfl (fun x => (k.received_fields e cur value perm x).1)
    (fun x => not_congr (Kern.received_free_iff he cur value perm x)) h.cur ?_
  exact Kern.forall_received (P := fun _ y => y.ipcRecving ≠ 0 → y.ipcDstva < utop ∧
    (y.ipcDstva = 0 ∨ utemp ≤ y.ipcDstva)) (fun hx => absurd rfl hx)
      fun x _ hx => ⟨h.dstva x hx, h.recv x hx⟩

/-- A message keeps mappings legal, and without an address for a page it maps none. -/
lemma LegalSpaces.sysIpcTrySend {envid value srcva : Word} (h : LegalSpaces M D K k)
    (hperm : perm < 4096#32) (hk : KeepsLegal M D k (.ipcTrySend envid value srcva perm))
    (hs : sysIpcTrySend M k envid value srcva perm = .ok (r, k')) : LegalSpaces M D K k' ∧
      ∀ e, envid2env k envid false = .ok (.ok (some e)) → (k.envs e).ipcDstva = 0 →
        k'.pm = k.pm := by
  rcases sysIpcTrySend_cases hs with ⟨rfl, -⟩ | ⟨e, cur, q, hva, hid, hrecv, hc, -, hk'⟩
  · exact ⟨h, fun _ _ _ => rfl⟩
  have hlive : (k.envs e).status ≠ .free := by
    rcases envid2env_eq_some hid with ⟨-, hce⟩ | ⟨-, -, hst, -⟩
    · exact h.cur e hce
    · exact hst
  rcases hk' with ⟨-, -, rfl⟩ | ⟨-, -, -, rfl⟩ | ⟨pp, pte, pm', h0, hl, hins, rfl⟩
  · exact ⟨h.received hlive cur value perm q, fun _ _ _ => rfl⟩
  · exact ⟨h.received hlive cur value perm q, fun _ _ _ => rfl⟩
  · have hlegal := hva.resolve_left h0
    obtain ⟨hdst, hroom⟩ := hk h0 hlegal e cur pp pte hid hrecv hc hl
    obtain ⟨hi1, hge⟩ := h.pages.insertable_of_lookup (h.dir cur (h.cur cur hc))
      (pdx_of_legal hlegal) hl
    have hmap := h.pageInsert (h.dir e hlive) ((h.recv e hrecv).resolve_left hdst)
      (h.dstva e hrecv) hi1 hge hperm hroom hins
    refine ⟨hmap.received hlive cur value perm q, fun x hx hx0 => ?_⟩
    rw [hid] at hx
    simp only [Except.ok.injEq, Option.some.injEq] at hx
    exact absurd (hx ▸ hx0) hdst

/-- **An entry keeps mappings legal** under its condition. -/
theorem LegalSpaces.step (h : LegalSpaces M D K k) (ha : MappingEntry a) (hk : KeepsLegal M D k a)
    (hs : enter M k a = .ok (o, k')) : (∃ K', LegalSpaces M D K' k') ∧
      ∀ envid value srcva perm e, a = .ipcTrySend envid value srcva perm →
        envid2env k envid false = .ok (.ok (some e)) → (k.envs e).ipcDstva = 0 → k'.pm = k.pm := by
  cases a with
  | memAlloc envid va perm =>
    obtain ⟨r, hs⟩ := returning_eq_ok hs
    exact ⟨h.sysMemAlloc ha hs, by simp⟩
  | memMap srcid srcva dstid dstva perm =>
    obtain ⟨r, hs⟩ := returning_eq_ok hs
    exact ⟨⟨K, h.sysMemMap ha hk hs⟩, by simp⟩
  | memUnmap envid va =>
    obtain ⟨r, hs⟩ := returning_eq_ok hs
    exact ⟨⟨K, h.sysMemUnmap hs⟩, by simp⟩
  | ipcRecv dstva => exact ⟨⟨K, h.sysIpcRecv hs⟩, by simp⟩
  | ipcTrySend envid value srcva perm =>
    obtain ⟨r, hs⟩ := returning_eq_ok hs
    obtain ⟨h', hpm⟩ := h.sysIpcTrySend ha hk hs
    refine ⟨⟨K, h'⟩, fun envid' value' srcva' perm' e he hid h0 => hpm e ?_ h0⟩
    simp only [Entry.ipcTrySend.injEq] at he
    rw [he.1, hid]
  | timer | yield =>
    obtain ⟨_, hsched⟩ := enter_schedules hs trivial
    obtain ⟨c, hd⟩ := schedule_dispatched hsched
    exact ⟨⟨K, h.dispatched hd⟩, by simp⟩
  | envCreate _ _ | envDestroy _ | setTlbModEntry _ _ | exofork | setEnvStatus _ _ =>
    exact absurd ha (by simp [MappingEntry])

/-! ## Runs -/

variable {σ : ℕ → Kern} {act : ℕ → Entry} {res : ℕ → Option Word}

/-- **User mappings stay in the legal range.** In every state of a run of the calls that map and
unmap pages whose entries meet the condition, every valid user entry is at an address from `UTEMP`
on; and a message to an environment that receives at 0 maps no page. -/
theorem mappings_legal (h : KernAccounting M (σ 0) D K) (hlegal : LegalPages (σ 0))
    (hrecv : ∀ e, ((σ 0).envs e).ipcRecving ≠ 0 →
      ((σ 0).envs e).ipcDstva = 0 ∨ utemp ≤ ((σ 0).envs e).ipcDstva)
    (hrun : KernRun M n σ act res) (hact : ∀ t < n, MappingEntry (act t))
    (hkeep : ∀ t < n, KeepsLegal M D (σ t) (act t)) :
    (∀ t ≤ n, LegalPages (σ t)) ∧
      ∀ t < n, ∀ envid value srcva perm e, act t = .ipcTrySend envid value srcva perm →
        envid2env (σ t) envid false = .ok (.ok (some e)) → ((σ t).envs e).ipcDstva = 0 →
          (σ (t + 1)).pm = (σ t).pm := by
  have htrap : ∀ {K' : Finset ℕ} {k : Kern} (tf : Trapframe), LegalSpaces M D K' k →
      LegalSpaces M D K' (k.trap tf) := fun _ h =>
    ⟨⟨h.pages, h.dir, h.cur, h.dstva⟩, h.legal, h.recv⟩
  have hinv : ∀ t ≤ n, ∃ K', LegalSpaces M D K' (σ t) := by
    intro t ht
    induction t with
    | zero => exact ⟨K, h, hlegal, hrecv⟩
    | succ t ih =>
      obtain ⟨K', hl⟩ := ih (by omega)
      obtain ⟨tf, hs⟩ := hrun t (by omega)
      exact ((htrap tf hl).step (hact t (by omega)) (hkeep t (by omega)) hs).1
  refine ⟨fun t ht => ?_, fun t ht envid value srcva perm e ha hid h0 => ?_⟩
  · obtain ⟨K', hl⟩ := hinv t ht
    exact hl.legal
  · obtain ⟨K', hl⟩ := hinv t ht.le
    obtain ⟨tf, hs⟩ := hrun t ht
    exact ((htrap tf hl).step (hact t ht) (hkeep t ht) hs).2 envid value srcva perm e ha hid h0

/-! ## A page that nobody wanted -/

/-- The first environment allocates a page and yields; the second one receives at 0; the first one
sends to it, with the page at `srcva` if that is not 0. -/
def unwantedEntries (srcva : Word) : ℕ → Entry
  | 0 => .memAlloc 0 0x400000#32 pteD
  | 1 => .yield
  | 2 => .ipcRecv 0
  | _ => .ipcTrySend 0x1001#32 5 srcva pteD

def unwantedRun (srcva : Word) : ℕ → Kern
  | 0 => pairKern
  | t + 1 => after smallMachine (unwantedRun srcva t) (unwantedEntries srcva t)

def unwantedResults : ℕ → Option Word
  | 0 | 3 => some 0
  | _ => none

lemma unwantedEntries_mapping (srcva : Word) (t : ℕ) : MappingEntry (unwantedEntries srcva t) := by
  have hperm : pteD < 4096#32 := by decide
  rcases t with _ | _ | _ | t
  · exact hperm
  · trivial
  · trivial
  · exact hperm

/-- Both runs are runs of the kernel. -/
lemma unwantedRun_kernRun {srcva : Word} (h : srcva = 0 ∨ srcva = 0x400000#32) :
    KernRun smallMachine 4 (unwantedRun srcva) (unwantedEntries srcva) unwantedResults := by
  intro t ht
  refine ⟨(unwantedRun srcva t).ktf, ?_⟩
  rcases h with rfl | rfl <;> interval_cases t <;> rfl

/-- The two address spaces are empty. -/
lemma pairKern_legal : LegalPages pairKern := by
  intro e he va hva hm
  refine absurd (translate_eq_none_iff.mpr fun hv => ?_) hm
  exact absurd (hv.symm.trans pteValid_zero) Bool.false_ne_true.symm

lemma pairKern_recv (e : EnvPtr) : (pairKern.envs e).ipcRecving = 0 := pairKern_start.idle e

/-- The message without a page. -/
theorem mappings_legal_unwanted : LegalPages (unwantedRun 0 4) :=
  (mappings_legal pairKern_accounting pairKern_legal
    (fun e he => absurd (pairKern_recv e) he) (unwantedRun_kernRun (Or.inl rfl))
    (fun t _ => unwantedEntries_mapping 0 t) fun t ht => by
      interval_cases t
      · trivial
      · trivial
      · trivial
      · exact fun h0 => absurd rfl h0).1 4 le_rfl

/-- The page of the message is mapped at 0, though the receiver asked for none. -/
theorem unwanted_page : ¬ ∀ (M : Machine) (D K : Finset ℕ) (n : ℕ) (σ : ℕ → Kern)
    (act : ℕ → Entry) (res : ℕ → Option Word), KernAccounting M (σ 0) D K → LegalPages (σ 0) →
      (∀ e, ((σ 0).envs e).ipcRecving = 0) → KernRun M n σ act res →
      (∀ t < n, MappingEntry (act t)) → ∀ t ≤ n, LegalPages (σ t) := by
  intro h
  have hlegal := h smallMachine {0, 1} ∅ 4 (unwantedRun 0x400000#32)
    (unwantedEntries 0x400000#32) unwantedResults pairKern_accounting pairKern_legal pairKern_recv
    (unwantedRun_kernRun (Or.inr rfl)) (fun t _ => unwantedEntries_mapping _ t) 4 le_rfl
  have hmapped : (translate (unwantedRun 0x400000#32 4).pm
      ((unwantedRun 0x400000#32 4).envs 1).pgdir 0).map ppn = some 7 := rfl
  have hlive : ((unwantedRun 0x400000#32 4).envs 1).status ≠ .free := by
    change EnvStatus.runnable ≠ .free
    decide
  have hle := hlegal 1 hlive 0 (by decide) fun hnone => by
    rw [hnone] at hmapped
    exact absurd hmapped (by simp)
  exact absurd hle (by decide)

end MosVolca
