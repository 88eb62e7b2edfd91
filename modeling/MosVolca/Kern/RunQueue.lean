import Mathlib.Logic.Relation
import Mathlib.Tactic.IntervalCases
import MosVolca.Kern.Boot
import MosVolca.Kern.Entry
import MosVolca.Kern.EnvCases

/-!
# The run queue

The comment in `env.c` says that an environment is in `env_sched_list` if and only if its status
is `ENV_RUNNABLE`. This file proves it for the runs in which only runnable environments are
destroyed and receive messages, and messages are only sent to environments that are not runnable;
and shows a run in which a message to a runnable environment makes the queue point to itself.

## Main definitions

* `MosVolca.RunQueue` — the invariant, with what it needs to know about the free environments.
* `MosVolca.KeepsRunQueue` — the entries that keep it.

## Main results

* `MosVolca.RunQueue.step` — an entry that keeps the run queue, for every entry.
* `MosVolca.runQueue_of_run` — the invariant in every state of a run.
-/

namespace MosVolca

open TailQueue

/-- `env_sched_list` is a well-formed queue of the runnable environments `l`; the environments of
the free list are free, and the current one is not. -/
structure RunQueue (k : Kern) (l : List EnvPtr) : Prop where
  repr : k.envSchedList.Repr l
  mem : ∀ e, e ∈ l ↔ (k.envs e).status = .runnable
  free_nodup : k.envFreeList.Nodup
  free : ∀ e ∈ k.envFreeList, (k.envs e).status = .free
  cur : ∀ e, k.curenv = some e → (k.envs e).status ≠ .free

/-- The two states agree on the lists, the current environment and the statuses. -/
structure SameQueues (k k' : Kern) : Prop where
  sched : k'.envSchedList = k.envSchedList
  free : k'.envFreeList = k.envFreeList
  cur : k'.curenv = k.curenv
  status : ∀ e, (k'.envs e).status = (k.envs e).status

variable {M : Machine} {k k' k'' : Kern} {l : List EnvPtr} {e : EnvPtr} {tf : Trapframe}
  {r envid va perm : Word}

lemma SameQueues.refl (k : Kern) : SameQueues k k := ⟨rfl, rfl, rfl, fun _ => rfl⟩

lemma SameQueues.trans (h : SameQueues k k') (h' : SameQueues k' k'') : SameQueues k k'' :=
  ⟨h'.sched.trans h.sched, h'.free.trans h.free, h'.cur.trans h.cur,
    fun e => (h'.status e).trans (h.status e)⟩

lemma RunQueue.congr (h : RunQueue k l) (hs : SameQueues k k') : RunQueue k' l where
  repr := hs.sched ▸ h.repr
  mem e := by rw [hs.status e, h.mem e]
  free_nodup := hs.free ▸ h.free_nodup
  free e he := by
    rw [hs.status e]
    exact h.free e (hs.free ▸ he)
  cur e he := by
    rw [hs.status e]
    exact h.cur e (hs.cur ▸ he)

/-- A change of an environment that keeps its status changes no queue. -/
lemma sameQueues_setEnv (k : Kern) (e : EnvPtr) (f : Env → Env)
    (hf : (f (k.envs e)).status = (k.envs e).status) : SameQueues k (k.setEnv e f) :=
  ⟨rfl, rfl, rfl, k.setEnv_keeps e f Env.status hf⟩

/-! ## Allocation -/

lemma envSetupVm_sameQueues (h : envSetupVm M k e = .ok (r, k')) : SameQueues k k' := by
  unfold envSetupVm at h
  rw [bind_eq_ok] at h
  obtain ⟨⟨o, pm⟩, -, h⟩ := h
  rcases o with r' | p
  · obtain ⟨-, rfl⟩ := pure_pair_inj h
    exact ⟨rfl, rfl, rfl, fun _ => rfl⟩
  · simp only [bind_eq_ok, pure_eq_ok, Except.ok.injEq, Prod.mk.injEq] at h
    obtain ⟨d, -, -, rfl⟩ := h
    exact ⟨rfl, rfl, rfl, Kern.setEnv_keeps { k with pm := _ } e _ Env.status rfl⟩

lemma envReset_sameQueues (k : Kern) (e : EnvPtr) : SameQueues k (envReset k e) := by
  refine ⟨rfl, rfl, rfl, fun e' => ?_⟩
  by_cases he : e' = e
  · simp [envReset, mkenvid, he]
  · simp [envReset, mkenvid, Kern.setEnv_envs_of_ne, he]

lemma envStart_status (k : Kern) (e : EnvPtr) (asid : Word) (bitmap : ℕ → Word) (parentId : Word)
    (e' : EnvPtr) : ((envStart k e asid bitmap parentId).envs e').status = (k.envs e').status := by
  by_cases he : e' = e
  · simp [envStart, he]
  · simp [envStart, Kern.setEnv_envs_of_ne, he]

/-- `env_alloc` takes the first free environment off its list and changes no status. -/
lemma envAlloc_queues {o : Except Word EnvPtr} (h : envAlloc M k envid = .ok (o, k')) :
    (∃ r, o = .error r ∧ SameQueues k k') ∨
      ∃ e rest, o = .ok e ∧ k.envFreeList = e :: rest ∧
        SameQueues { k with envFreeList := k.envFreeList.erase e } k' := by
  unfold envAlloc at h
  rcases hf : k.envFreeList with _ | ⟨e, rest⟩
  · rw [hf] at h
    obtain ⟨rfl, rfl⟩ := pure_pair_inj h
    exact Or.inl ⟨_, rfl, SameQueues.refl k⟩
  · rw [hf] at h
    simp only [bind_eq_ok] at h
    obtain ⟨⟨r, k1⟩, hsetup, h⟩ := h
    have h1 := envSetupVm_sameQueues hsetup
    have h2 := h1.trans (envReset_sameQueues k1 e)
    simp only at h
    split_ifs at h with hr
    · obtain ⟨rfl, rfl⟩ := pure_pair_inj h
      exact Or.inl ⟨_, rfl, h1⟩
    · rcases ha : asidAlloc (envReset k1 e).asidBitmap with r' | ⟨asid, bitmap⟩
      · rw [ha] at h
        obtain ⟨rfl, rfl⟩ := pure_pair_inj h
        exact Or.inl ⟨_, rfl, h2⟩
      · rw [ha] at h
        obtain ⟨rfl, rfl⟩ := pure_pair_inj h
        refine Or.inr ⟨e, rest, rfl, rfl, h2.sched, ?_, h2.cur, fun e' => ?_⟩
        · change (envReset k1 e).envFreeList.erase e = _
          rw [h2.free, hf]
        · exact (envStart_status _ e asid bitmap envid e').trans (h2.status e')

/-- The new environment of `env_alloc` leaves the queues as they were, with a new status. -/
lemma RunQueue.alloc (h : RunQueue k l) {rest : List EnvPtr} (hf : k.envFreeList = e :: rest)
    (hs : SameQueues { k with envFreeList := k.envFreeList.erase e } k') :
    (k'.envs e).status = .free ∧ e ∉ l ∧ e ∉ k'.envFreeList ∧ RunQueue k' l := by
  have he : (k.envs e).status = .free := h.free e (by rw [hf]; exact List.mem_cons_self)
  have hmem : ∀ x ∈ k.envFreeList.erase e, (k.envs x).status = .free := fun x hx =>
    h.free x (List.mem_of_mem_erase hx)
  refine ⟨(hs.status e).trans he, fun hel => ?_, ?_, RunQueue.congr ?_ hs⟩
  · rw [h.mem e, he] at hel
    exact absurd hel (by decide)
  · rw [hs.free]
    exact h.free_nodup.not_mem_erase
  · exact ⟨h.repr, h.mem, h.free_nodup.erase e, hmem, h.cur⟩

/-- A free or blocked environment outside the free list becomes runnable and joins the queue. -/
lemma RunQueue.wake (h : RunQueue k l)
    (hfree : e ∉ k.envFreeList) {l' : List EnvPtr} (hl' : l'.Perm (e :: l))
    (hr : k'.envSchedList.Repr l') (hf : k'.envFreeList = k.envFreeList)
    (hc : k'.curenv = k.curenv) (hst : (k'.envs e).status = .runnable)
    (hother : ∀ x, x ≠ e → (k'.envs x).status = (k.envs x).status) : RunQueue k' l' where
  repr := hr
  mem x := by
    rw [hl'.mem_iff, List.mem_cons]
    by_cases hx : x = e
    · simp [hx, hst]
    · rw [hother x hx, h.mem x]
      simp [hx]
  free_nodup := hf ▸ h.free_nodup
  free x hx := by
    rw [hf] at hx
    rw [hother x (fun hxe => hfree (hxe ▸ hx))]
    exact h.free x hx
  cur x hx := by
    by_cases hxe : x = e
    · rw [hxe, hst]
      decide
    · rw [hother x hxe]
      exact h.cur x (hc ▸ hx)

/-- A runnable environment leaves the queue. -/
lemma RunQueue.sleep (h : RunQueue k l) (hr : k'.envSchedList.Repr (l.erase e))
    (hf : k'.envFreeList.Nodup) (hc : k'.curenv = k.curenv)
    (hst : (k'.envs e).status ≠ .runnable)
    (hother : ∀ x, x ≠ e → (k'.envs x).status = (k.envs x).status)
    (hfree : ∀ x ∈ k'.envFreeList, (k'.envs x).status = .free)
    (hcur : k.curenv = some e → (k'.envs e).status ≠ .free) : RunQueue k' (l.erase e) where
  repr := hr
  mem x := by
    rw [h.repr.nodup.mem_erase_iff]
    by_cases hx : x = e
    · simp [hx, hst]
    · rw [hother x hx, h.mem x]
      simp [hx]
  free_nodup := hf
  free := hfree
  cur x hx := by
    by_cases hxe : x = e
    · rw [hxe]
      exact hcur (hxe ▸ hc ▸ hx)
    · rw [hother x hxe]
      exact h.cur x (hc ▸ hx)

/-! ## The scheduler -/

/-- A switch that leaves the queue as it is. -/
lemma RunQueue.dispatched (h : RunQueue k l) (hd : Dispatched k k' e)
    (hs : k'.envSchedList = k.envSchedList) : RunQueue k' l where
  repr := hs ▸ h.repr
  mem x := by rw [hd.status x, h.mem x]
  free_nodup := hd.free ▸ h.free_nodup
  free x hx := by
    rw [hd.status x]
    exact h.free x (hd.free ▸ hx)
  cur x hx := by
    rw [hd.cur, Option.some.injEq] at hx
    rw [hd.status x, ← hx, hd.runnable]
    decide

/-- `schedule` keeps the run queue: it moves the current environment to its tail. -/
lemma RunQueue.schedule {yield : Bool} (h : RunQueue k l) (hs : schedule k yield = .ok k') :
    ∃ l', RunQueue k' l' := by
  rcases schedule_cases hs with ⟨e, -, hd, hl⟩ | ⟨k1, e, -, hq, -, hd, hl⟩
  · exact ⟨l, h.dispatched hd hl⟩
  · rcases requeue_cases hq with rfl | ⟨c, q1, q2, -, hr, h1, h2, rfl⟩
    · exact ⟨l, h.dispatched hd hl⟩
    · have hc : c ∈ l := (h.mem c).mpr hr
      obtain ⟨q1', h1', hrepr⟩ := h.repr.remove hc
      obtain rfl : q1' = q1 := Option.some.inj (h1'.symm.trans h1)
      obtain ⟨q2', h2', hrepr⟩ := hrepr.insertTail h.repr.nodup.not_mem_erase
      obtain rfl : q2' = q2 := Option.some.inj (h2'.symm.trans h2)
      have h1 : RunQueue { k with envSchedList := q2' } (l.erase c ++ [c]) := by
        refine ⟨hrepr, fun x => ?_, h.free_nodup, h.free, h.cur⟩
        change _ ↔ (k.envs x).status = .runnable
        rw [← h.mem x, List.mem_append, List.mem_singleton, h.repr.nodup.mem_erase_iff]
        by_cases hx : x = c
        · simp [hx, hc]
        · simp [hx]
      exact ⟨_, h1.dispatched hd hl⟩

/-! ## Creation -/

lemma loadIcodeMapper_sameQueues {c : MapperCall} (h : loadIcodeMapper M k e c = .ok (r, k')) :
    SameQueues k k' := by
  unfold loadIcodeMapper at h
  obtain ⟨⟨o, pm⟩, -, h⟩ := bind_eq_ok.mp h
  rcases o with r' | p
  · simp at h
  · obtain ⟨pm1, -, h⟩ := bind_eq_ok.mp h
    obtain ⟨⟨r1, pm2⟩, -, h⟩ := bind_eq_ok.mp h
    obtain ⟨-, rfl⟩ := pure_pair_inj h
    exact ⟨rfl, rfl, rfl, fun _ => rfl⟩

/-- Loading a program leaves the queues. -/
lemma loadIcode_sameQueues {binary : Option Image} (h : loadIcode M k e binary = .ok k') :
    SameQueues k k' := by
  unfold loadIcode at h
  rcases binary with _ | image
  · simp at h
  · simp only [bind_eq_ok, pure_eq_ok, Except.ok.injEq] at h
    obtain ⟨k1, hfold, rfl⟩ := h
    refine SameQueues.trans (foldlM_invariant (P := fun k1 => SameQueues k k1) ?_
      (SameQueues.refl k) hfold) (sameQueues_setEnv k1 e _ rfl)
    intro c _ k1 k2 h1 hstep
    obtain ⟨⟨r, k3⟩, hmap, hstep⟩ := bind_eq_ok.mp hstep
    simp only at hstep
    split_ifs at hstep
    simp only [Except.ok.injEq] at hstep
    exact hstep ▸ h1.trans (loadIcodeMapper_sameQueues hmap)

/-- `env_create` puts the new environment at the head of the queue. -/
lemma RunQueue.envCreate {binary : Option Image} {priority : Word} (h : RunQueue k l)
    (hs : envCreate M k binary priority = .ok (e, k')) : RunQueue k' (e :: l) := by
  unfold MosVolca.envCreate at hs
  obtain ⟨⟨o, k1⟩, halloc, hs⟩ := bind_eq_ok.mp hs
  rcases envAlloc_queues halloc with ⟨r, rfl, -⟩ | ⟨e', rest, rfl, hf, hsame⟩
  · simp at hs
  · obtain ⟨k2, hload, hs⟩ := bind_eq_ok.mp hs
    obtain ⟨rfl, rfl⟩ := pure_pair_inj hs
    obtain ⟨-, hel, hef, h1⟩ := h.alloc hf hsame
    have hsame2 := loadIcode_sameQueues hload
    refine h1.wake hef (List.Perm.refl _) ?_ hsame2.free hsame2.cur ?_ fun x hx => ?_
    · change (k2.envSchedList.insertHead e').Repr _
      rw [hsame2.sched]
      exact h1.repr.insertHead hel
    · exact (hsame2.status e').trans (by simp)
    · refine (hsame2.status x).trans ?_
      rw [Kern.setEnv_envs_of_ne _ _ hx]

/-- `sys_exofork` makes an environment that is not runnable. -/
lemma RunQueue.sysExofork (h : RunQueue k l) (hs : sysExofork M k = .ok (r, k')) :
    RunQueue k' l := by
  obtain ⟨cur, o, k1, hcur, halloc, ⟨rfl, rfl⟩ | ⟨x, rfl, -, rfl⟩⟩ := sysExofork_alloc hs
  all_goals rcases envAlloc_queues halloc with ⟨r', ho, hsame⟩ | ⟨e, rest, ho, hf, hsame⟩
  · exact h.congr hsame
  · simp at ho
  · simp at ho
  · obtain rfl : e = x := by simpa using ho.symm
    obtain ⟨-, hel, hef, h1⟩ := h.alloc hf hsame
    have herase : l.erase e = l := List.erase_of_not_mem hel
    rw [← herase]
    refine h1.sleep (by rw [herase]; exact h1.repr) h1.free_nodup rfl (by simp) (fun x hx => ?_)
      (fun x hx => ?_) fun _ => by simp
    · rw [Kern.setEnv_envs_of_ne _ _ hx]
    · have hxe : x ≠ e := fun hxe => hef (hxe ▸ hx)
      rw [Kern.setEnv_envs_of_ne _ _ hxe]
      exact h1.free x hx

/-! ## The other entries -/

/-- `envid2env` finds environments that are in use. -/
lemma RunQueue.envid2env (h : RunQueue k l) {checkperm : Bool}
    (hs : envid2env k envid checkperm = .ok (.ok (some e))) : (k.envs e).status ≠ .free := by
  rcases envid2env_eq_some hs with ⟨-, hc⟩ | ⟨-, -, hst, -⟩
  · exact h.cur e hc
  · exact hst

lemma RunQueue.not_mem_free (h : RunQueue k l) (he : (k.envs e).status ≠ .free) :
    e ∉ k.envFreeList := fun hf => he (h.free e hf)

lemma RunQueue.ne_of_mem_free (h : RunQueue k l) (he : (k.envs e).status ≠ .free) {x : EnvPtr}
    (hx : x ∈ k.envFreeList) : x ≠ e := by
  rintro rfl
  exact h.not_mem_free he hx

/-- `env_free` of a runnable environment. -/
lemma RunQueue.envFree (h : RunQueue k l) (he : (k.envs e).status = .runnable)
    (hs : envFree M k e = .ok k') :
    (∀ c, k.curenv = some c → c ≠ e → (k'.envs c).status ≠ .free) ∧ k'.curenv = k.curenv ∧
      RunQueue { k' with curenv := none } (l.erase e) := by
  unfold MosVolca.envFree at hs
  obtain ⟨pm, -, hs⟩ := bind_eq_ok.mp hs
  obtain ⟨q, hq, hs⟩ := bind_eq_ok.mp hs
  simp only [pure_eq_ok, Except.ok.injEq] at hs
  subst hs
  obtain ⟨q', hq', hrepr⟩ := h.repr.remove ((h.mem e).mpr he)
  obtain rfl : q' = q := Option.some.inj (hq'.symm.trans (deref_eq_ok.mp hq))
  have hne : e ∉ k.envFreeList := h.not_mem_free (by rw [he]; decide)
  have hother : ∀ x, x ≠ e → (({ k with
      pm := pm, asidBitmap := asidFree k.asidBitmap (k.envs e).asid }.setEnv e
        fun x => { x with status := .free }).envs x).status = (k.envs x).status := fun x hx => by
    rw [Kern.setEnv_envs_of_ne _ _ hx]
  refine ⟨fun c hc hce => ?_, rfl, hrepr, fun x => ?_, ?_, fun x hx => ?_, by simp⟩
  · exact (hother c hce).symm ▸ h.cur c hc
  · rw [h.repr.nodup.mem_erase_iff]
    by_cases hx : x = e
    · simp [hx]
    · rw [h.mem x]
      simp [hx, Kern.setEnv_envs_of_ne]
  · exact List.nodup_cons.mpr ⟨hne, h.free_nodup⟩
  · rcases List.mem_cons.mp hx with rfl | hx
    · simp
    · refine (hother x fun hxe => hne (hxe ▸ hx)).trans (h.free x hx)

/-- `env_destroy` of a runnable environment. -/
lemma RunQueue.envDestroy {returned : Bool} (h : RunQueue k l) (he : (k.envs e).status = .runnable)
    (hs : envDestroy M k e = .ok (returned, k')) : ∃ l', RunQueue k' l' := by
  obtain ⟨k1, hfree, hs⟩ := envDestroy_cases hs
  obtain ⟨hcur, hc, h1⟩ := h.envFree he hfree
  rcases hs with ⟨-, -, hsched⟩ | ⟨hce, -, rfl⟩
  · exact h1.schedule hsched
  · refine ⟨l.erase e, h1.repr, h1.mem, h1.free_nodup, h1.free, fun c hcc => ?_⟩
    exact hcur c (hc ▸ hcc) fun hce' => hce (hce' ▸ hcc)

/-- `sys_set_env_status`. -/
lemma RunQueue.sysSetEnvStatus {status : Word} (h : RunQueue k l)
    (hs : sysSetEnvStatus k envid status = .ok (r, k')) : ∃ l', RunQueue k' l' := by
  unfold MosVolca.sysSetEnvStatus at hs
  by_cases hbad : status ≠ envRunnable ∧ status ≠ envNotRunnable
  · rw [if_pos hbad] at hs
    replace hs := pure_pair_inj hs
    exact ⟨l, hs.2 ▸ h⟩
  rw [if_neg hbad] at hs
  obtain ⟨o, hid, hs⟩ := bind_eq_ok.mp hs
  rcases o with r' | p
  · replace hs := pure_pair_inj hs
    exact ⟨l, hs.2 ▸ h⟩
  obtain ⟨e, hp, hs⟩ := bind_eq_ok.mp hs
  rw [deref_eq_ok.mp hp] at hid
  obtain ⟨k1, hup, hs⟩ := bind_eq_ok.mp hs
  obtain ⟨-, rfl⟩ := pure_pair_inj hs
  have huse := h.envid2env hid
  have hfree := h.not_mem_free huse
  unfold updateSchedList at hup
  by_cases hsame : (k.envs e).status.toWord ≠ status
  · rw [if_pos hsame] at hup
    by_cases hrun : status = envRunnable
    · -- a blocked environment becomes runnable
      subst hrun
      rw [if_pos rfl] at hup
      obtain ⟨q, hq, hup⟩ := bind_eq_ok.mp hup
      simp only [pure_eq_ok, Except.ok.injEq] at hup
      subst hup
      have hnot : e ∉ l := fun hel => hsame (by rw [(h.mem e).mp hel]; rfl)
      obtain ⟨q', hq', hrepr⟩ := h.repr.insertTail hnot
      obtain rfl : q' = q := Option.some.inj (hq'.symm.trans (deref_eq_ok.mp hq))
      refine ⟨l ++ [e], h.wake hfree (List.perm_append_singleton e l) hrepr rfl rfl ?_ fun x hx => ?_⟩
      · simp [EnvStatus.ofWord]
      · rw [Kern.setEnv_envs_of_ne _ _ hx]
    · -- a runnable environment becomes blocked
      rw [if_neg hrun] at hup
      obtain ⟨q, hq, hup⟩ := bind_eq_ok.mp hup
      simp only [pure_eq_ok, Except.ok.injEq] at hup
      subst hup
      have hst : (k.envs e).status = .runnable := by
        have hnr : status = envNotRunnable := by tauto
        rcases hst : (k.envs e).status with _ | _ | _
        · exact absurd hst huse
        · rfl
        · exact absurd (by rw [hst, hnr]; rfl) hsame
      obtain ⟨q', hq', hrepr⟩ := h.repr.remove ((h.mem e).mpr hst)
      obtain rfl : q' = q := Option.some.inj (hq'.symm.trans (deref_eq_ok.mp hq))
      refine ⟨l.erase e, h.sleep hrepr h.free_nodup rfl ?_ (fun x hx => ?_) (fun x hx => ?_) ?_⟩
      · simp [EnvStatus.ofWord, hrun]
      · rw [Kern.setEnv_envs_of_ne _ _ hx]
      · rw [Kern.setEnv_envs_of_ne _ _ (h.ne_of_mem_free huse hx)]
        exact h.free x hx
      · simp [EnvStatus.ofWord, hrun]
  · -- nothing changes
    rw [if_neg hsame] at hup
    simp only [pure_eq_ok, Except.ok.injEq] at hup
    subst hup
    refine ⟨l, h.congr (sameQueues_setEnv k e _ ?_)⟩
    change EnvStatus.ofWord status = (k.envs e).status
    rw [← not_not.mp hsame]
    rcases hst : (k.envs e).status with _ | _ | _
    · exact absurd hst huse
    · rfl
    · rfl

/-- `sys_ipc_recv` of a runnable environment. -/
lemma RunQueue.sysIpcRecv {dstva : Word} {o : Option Word} (h : RunQueue k l)
    (hcur : (dstva = 0 ∨ isIllegalVa dstva = false) →
      ∀ e, k.curenv = some e → (k.envs e).status = .runnable)
    (hs : sysIpcRecv k dstva = .ok (o, k')) : ∃ l', RunQueue k' l' := by
  rcases sysIpcRecv_cases hs with ⟨-, rfl⟩ | ⟨cur, q, hbad, -, hc, hq, hsched⟩
  · exact ⟨l, h⟩
  have hrun := hcur (by simpa [imp_iff_not_or] using hbad) cur hc
  have huse : (k.envs cur).status ≠ .free := by
    rw [hrun]
    decide
  obtain ⟨q', hq', hrepr⟩ := h.repr.remove ((h.mem cur).mpr hrun)
  obtain rfl : q' = q := Option.some.inj (hq'.symm.trans hq)
  refine RunQueue.schedule (l := l.erase cur) ?_ hsched
  unfold Kern.waiting
  refine h.sleep hrepr h.free_nodup rfl ?_ (fun x hx => ?_) (fun x hx => ?_) ?_
  · simp
  · simp only [Kern.setEnv_envs_of_ne _ _ hx]
  · simp only [Kern.setEnv_envs_of_ne _ _ (h.ne_of_mem_free huse hx)]
    exact h.free x hx
  · simp

/-- `sys_ipc_try_send` to an environment that is not runnable, if it passes the checks. -/
lemma RunQueue.sysIpcTrySend {value srcva : Word} (h : RunQueue k l)
    (hdst : (srcva = 0 ∨ isIllegalVa srcva = false) → ∀ e,
      MosVolca.envid2env k envid false = .ok (.ok (some e)) → (k.envs e).ipcRecving ≠ 0 →
        (k.envs e).status ≠ .runnable)
    (hs : sysIpcTrySend M k envid value srcva perm = .ok (r, k')) : ∃ l', RunQueue k' l' := by
  rcases sysIpcTrySend_cases hs with ⟨rfl, -⟩ | ⟨e, cur, q, hsrc, hid, hrecv, -, hq, hk⟩
  · exact ⟨l, h⟩
  have hnot := hdst hsrc e hid hrecv
  have huse := h.envid2env hid
  obtain ⟨q', hq', hrepr⟩ := h.repr.insertTail (mt (h.mem e).mp hnot)
  obtain rfl : q' = q := Option.some.inj (hq'.symm.trans hq)
  have h1 : RunQueue { k.received e cur value perm with envSchedList := q' } (l ++ [e]) := by
    refine h.wake (h.not_mem_free huse) (List.perm_append_singleton e l) hrepr rfl rfl ?_
      fun x hx => ?_
    · simp [Kern.received]
    · simp only [Kern.received, Kern.setEnv_envs_of_ne _ _ hx]
  rcases hk with ⟨-, -, rfl⟩ | ⟨-, -, -, rfl⟩ | ⟨pp, pte, pm', -, -, -, rfl⟩
  · exact ⟨_, h1⟩
  · exact ⟨_, h1⟩
  · exact ⟨_, h1.congr ⟨rfl, rfl, rfl, fun _ => rfl⟩⟩

/-! ## Runs -/

/-- The condition under which an entry keeps the run queue: only a runnable environment is
destroyed or starts to receive, and a message that passes the checks goes to an environment that
is not runnable. -/
def KeepsRunQueue (k : Kern) : Entry → Prop
  | .envDestroy envid =>
    ∀ e, envid2env k envid true = .ok (.ok (some e)) → (k.envs e).status = .runnable
  | .ipcRecv dstva => (dstva = 0 ∨ isIllegalVa dstva = false) →
    ∀ e, k.curenv = some e → (k.envs e).status = .runnable
  | .ipcTrySend envid _ srcva _ => (srcva = 0 ∨ isIllegalVa srcva = false) →
    ∀ e, envid2env k envid false = .ok (.ok (some e)) → (k.envs e).ipcRecving ≠ 0 →
      (k.envs e).status ≠ .runnable
  | _ => True

/-- **An entry keeps the run queue** under its condition. -/
theorem RunQueue.step {x : Entry} (h : RunQueue k l) (hx : KeepsRunQueue k x)
    (hs : Kern.Step M x k k') : ∃ l', RunQueue k' l' := by
  obtain ⟨tf, o, hs⟩ := hs
  have ht : RunQueue (k.trap tf) l := h.congr ⟨rfl, rfl, rfl, fun _ => rfl⟩
  cases x with
  | envCreate binary priority =>
    obtain ⟨⟨e, k1⟩, hc, hs⟩ := bind_eq_ok.mp hs
    replace hs := pure_pair_inj hs
    exact ⟨_, hs.2 ▸ ht.envCreate hc⟩
  | timer | yield =>
    obtain ⟨_, hc⟩ := enter_schedules hs trivial
    exact ht.schedule hc
  | envDestroy envid =>
    rcases sysEnvDestroy_cases hs with ⟨-, rfl⟩ | ⟨e, returned, hid, hd, -⟩
    · exact ⟨l, ht⟩
    · exact ht.envDestroy (hx e hid) hd
  | setTlbModEntry envid func =>
    obtain ⟨r, hs⟩ := returning_eq_ok hs
    rcases sysSetTlbModEntry_cases hs with ⟨-, rfl⟩ | ⟨e, -, -, rfl⟩
    · exact ⟨l, ht⟩
    · exact ⟨l, ht.congr (sameQueues_setEnv _ e _ rfl)⟩
  | memAlloc | memMap | memUnmap =>
    obtain ⟨_, rfl⟩ := enter_onMemory hs trivial
    exact ⟨l, ht.congr ⟨rfl, rfl, rfl, fun _ => rfl⟩⟩
  | exofork =>
    obtain ⟨r, hs⟩ := returning_eq_ok hs
    exact ⟨l, ht.sysExofork hs⟩
  | setEnvStatus envid status =>
    obtain ⟨r, hs⟩ := returning_eq_ok hs
    exact ht.sysSetEnvStatus hs
  | ipcRecv dstva => exact ht.sysIpcRecv hx hs
  | ipcTrySend envid value srcva perm =>
    obtain ⟨r, hs⟩ := returning_eq_ok hs
    exact ht.sysIpcTrySend hx hs

/-- `env_init` makes an empty queue and puts every environment on the free list. -/
lemma runQueue_boot (pm : PhysMem) (base : ℕ) (ktf : Trapframe) :
    RunQueue (Kern.boot pm base ktf) [] where
  repr := ⟨List.nodup_nil, rfl, trivial, rfl⟩
  mem e := by simp [Kern.boot, Env.zero]
  free_nodup := nodup_allEnvs
  free e _ := by simp [Kern.boot, Env.zero]
  cur e he := by simp [Kern.boot] at he

/-- The state after `env_init`. -/
lemma envInit_boot {pm : PhysMem} {ktf : Trapframe} (h : envInit M pm ktf = .ok k) :
    ∃ pm' base, k = Kern.boot pm' base ktf := by
  unfold envInit at h
  obtain ⟨⟨o, pm1⟩, -, h⟩ := bind_eq_ok.mp h
  rcases o with r' | p
  · simp at h
  simp only [bind_eq_ok, pure_eq_ok, Except.ok.injEq] at h
  obtain ⟨base, -, pm2, -, pm3, -, rfl⟩ := h
  exact ⟨pm3, base, rfl⟩

/-- A kernel entry that meets the condition. -/
def KeepingStep (M : Machine) (k k' : Kern) : Prop :=
  ∃ x, KeepsRunQueue k x ∧ Kern.Step M x k k'

/-- **The run queue.** In every state of a run from `env_init` whose entries meet the condition,
`env_sched_list` is a well-formed queue of the runnable environments. -/
theorem runQueue_of_run {k₀ : Kern} {pm : PhysMem} {ktf : Trapframe}
    (hinit : envInit M pm ktf = .ok k₀) (hrun : Relation.ReflTransGen (KeepingStep M) k₀ k) :
    ∃ l, k.envSchedList.Repr l ∧ ∀ e, e ∈ l ↔ (k.envs e).status = .runnable := by
  obtain ⟨pm', base, rfl⟩ := envInit_boot hinit
  have h : ∃ l, RunQueue k l := by
    induction hrun with
    | refl => exact ⟨[], runQueue_boot pm' base ktf⟩
    | tail _ hs ih =>
      obtain ⟨l, hl⟩ := ih
      obtain ⟨x, hx, hstep⟩ := hs
      exact hl.step hx hstep
  obtain ⟨l, hl⟩ := h
  exact ⟨l, hl.repr, hl.mem⟩

/-! ## A run that breaks the queue -/

/-- The bitmap after one, and after two, calls of `asid_alloc`. -/
def oneAsid : ℕ → Word := Function.update (fun _ => 0) 0 1#32
def twoAsids : ℕ → Word := Function.update oneAsid 0 3#32

/-- The first environment forks, makes its child runnable and yields; the child receives; the first
environment makes it runnable again and sends to it. -/
def queueEntries : ℕ → Entry
  | 0 => .envCreate (some ⟨[], 0⟩) 1
  | 1 => .timer
  | 2 => .exofork
  | 3 => .setEnvStatus 0x1001#32 1
  | 4 => .yield
  | 5 => .ipcRecv 0
  | 6 => .setEnvStatus 0x1001#32 1
  | _ => .ipcTrySend 0x1001#32 0 0 0

/-- The state before entry `t`, from the boot on. -/
noncomputable def queueRun : ℕ → Kern
  | 0 => Kern.boot booted.pm booted.base Env.zero.tf
  | 1 =>
    let k := (queueRun 0).allocated 0 booted.page0 (booted.page1 :: booted.rest) 0 oneAsid 0
    let k := k.setEnv 0 fun x => { x with pri := 1, status := .runnable }
    let k := k.setEnv 0 fun x => { x with tf := { x.tf with cp0Epc := 0 } }
    { k with envSchedList := k.envSchedList.insertHead 0 }
  | 3 =>
    let k := (queueRun 2).allocated 1 booted.page1 booted.rest 1 twoAsids 0x800#32
    k.setEnv 1 fun x => { x with
      tf := { k.ktf with regs := Function.update k.ktf.regs 2 0 }
      status := .notRunnable
      path := strcpy x.path (k.envs 0).path
      pri := (k.envs 0).pri
      shellId := (k.envs 0).shellId }
  | t + 1 => after bootMachine (queueRun t) (queueEntries t)

lemma allEnvs_eq : ∃ rest, allEnvs = 0 :: 1 :: rest := by
  refine ⟨((List.finRange 1022).map Fin.succ).map Fin.succ, ?_⟩
  unfold allEnvs nenv
  rw [List.finRange_succ, List.finRange_succ, List.map_cons, Fin.succ_zero_eq_one]

lemma booted_lt {p : ℕ} (hp : p = booted.page0 ∨ p = booted.page1) : p < bootMachine.npage := by
  refine booted.accounting.pages.free_lt p ?_
  change p ∈ booted.pm.pageFreeList
  rw [booted.free]
  rcases hp with rfl | rfl <;> simp

/-- What the entries return. -/
def queueResults : ℕ → Option Word
  | 2 => some 0x1001#32
  | 3 | 6 | 7 => some 0
  | _ => none

/-- The first entry of the run. -/
lemma queueRun_create :
    enter bootMachine (queueRun 0) (queueEntries 0) = .ok (queueResults 0, queueRun 1) := by
  obtain ⟨rest, hrest⟩ := allEnvs_eq
  have halloc : envAlloc bootMachine (queueRun 0) 0 = .ok (.ok 0,
      (queueRun 0).allocated 0 booted.page0 (booted.page1 :: booted.rest) 0 oneAsid 0) :=
    envAlloc_ok hrest booted.free (booted_lt (Or.inl rfl)) rfl
  change (envCreate bootMachine (queueRun 0) (some ⟨[], 0⟩) 1 >>= _) = _
  unfold envCreate
  rw [halloc]
  rfl

/-- The third entry of the run. -/
lemma queueRun_fork :
    enter bootMachine (queueRun 2) (queueEntries 2) = .ok (queueResults 2, queueRun 3) := by
  obtain ⟨rest, hrest⟩ := allEnvs_eq
  have hfree : (queueRun 2).envFreeList = 1 :: rest := by
    change allEnvs.erase 0 = _
    rw [hrest, List.erase_cons_head]
  have hpages : (queueRun 2).pm.pageFreeList = booted.page1 :: booted.rest := rfl
  have halloc : envAlloc bootMachine (queueRun 2) 0x800#32 = .ok (.ok 1,
      (queueRun 2).allocated 1 booted.page1 booted.rest 1 twoAsids 0x800#32) :=
    envAlloc_ok hfree hpages (booted_lt (Or.inr rfl)) rfl
  change returning (sysExofork bootMachine (queueRun 2)) = _
  unfold sysExofork
  change returning (envAlloc bootMachine (queueRun 2) 0x800#32 >>= _) = _
  rw [halloc]
  rfl

/-- What each entry of the run does. -/
lemma queueRun_enter (t : ℕ) (ht : t < 8) :
    enter bootMachine (queueRun t) (queueEntries t) = .ok (queueResults t, queueRun (t + 1)) := by
  match t, ht with
  | 0, _ => exact queueRun_create
  | 1, _ => rfl
  | 2, _ => exact queueRun_fork
  | 3, _ => rfl
  | 4, _ => rfl
  | 5, _ => rfl
  | 6, _ => rfl
  | 7, _ => rfl
  | t + 8, h => omega

/-- Every step of the run is a kernel entry. -/
lemma queueRun_steps (t : ℕ) (ht : t < 8) :
    Kern.Step bootMachine (queueEntries t) (queueRun t) (queueRun (t + 1)) :=
  ⟨(queueRun t).ktf, queueResults t, by rw [Kern.trap_ktf, queueRun_enter t ht]⟩

/-- The first five entries of the run meet the condition: both environments are in the queue. -/
theorem runQueue_of_run_fork : ∃ l, (queueRun 5).envSchedList.Repr l ∧
    ∀ e, e ∈ l ↔ ((queueRun 5).envs e).status = .runnable := by
  have hstep : ∀ t < 5, KeepingStep bootMachine (queueRun t) (queueRun (t + 1)) := fun t ht =>
    ⟨queueEntries t, by interval_cases t <;> trivial, queueRun_steps t (by omega)⟩
  exact runQueue_of_run booted.envInit_eq
    (((((Relation.ReflTransGen.refl.tail (hstep 0 (by omega))).tail (hstep 1 (by omega))).tail
      (hstep 2 (by omega))).tail (hstep 3 (by omega))).tail (hstep 4 (by omega)))

/-- A queue in which an element points to itself is not well formed. -/
lemma not_repr_of_next_self {q : TailQ EnvPtr} (h : q.next e = some e) (hl : q.Repr l) :
    e ∉ l := by
  intro he
  obtain ⟨l₁, l₂, rfl⟩ := List.append_of_mem he
  obtain ⟨-, -, hnext, -⟩ := TailQ.linked_append.mp hl.linked
  have hmem : e ∈ l₂ := by
    rw [h] at hnext
    rcases l₂ with _ | ⟨x, l₂⟩
    · simp at hnext
    · obtain rfl : e = x := by simpa using hnext
      exact List.mem_cons_self
  exact (List.nodup_cons.mp (List.nodup_append.mp hl.nodup).2.1).1 hmem

/-- At the end of the run the child is runnable and its `tqe_next` points to itself. -/
theorem runQueue_broken : ¬ ∀ (M : Machine) (pm : PhysMem) (ktf : Trapframe) (k₀ k : Kern),
    envInit M pm ktf = .ok k₀ →
    Relation.ReflTransGen (fun k k' => ∃ x, Kern.Step M x k k') k₀ k →
      ∃ l, k.envSchedList.Repr l ∧ ∀ e, e ∈ l ↔ (k.envs e).status = .runnable := by
  intro h
  have hrun : ∀ t ≤ 8, Relation.ReflTransGen (fun k k' => ∃ x, Kern.Step bootMachine x k k')
      (queueRun 0) (queueRun t) := by
    intro t ht
    induction t with
    | zero => exact .refl
    | succ t ih => exact (ih (by omega)).tail ⟨queueEntries t, queueRun_steps t (by omega)⟩
  obtain ⟨l, hl, hmem⟩ := h bootMachine booted.pm₀ Env.zero.tf _ _ booted.envInit_eq (hrun 8 le_rfl)
  have hnext : (queueRun 8).envSchedList.next 1 = some 1 := rfl
  have hstatus : ((queueRun 8).envs 1).status = .runnable := rfl
  exact not_repr_of_next_self hnext hl ((hmem 1).mpr hstatus)

end MosVolca
