import MosVolca.Kern.Env

/-!
# The scheduler

`schedule` of `kern/sched.c`, and `env_destroy` of `kern/env.c`, which calls it. Both end in
`env_run`: they give the state in which an environment goes back to user mode.

## Main definitions

* `MosVolca.schedule` — `schedule`.
* `MosVolca.envDestroy` — `env_destroy`, and whether it returned to its caller.
* `MosVolca.Dispatched` — the two states differ by the switch to an environment.

## Main results

* `MosVolca.schedule_dispatched` — `schedule` switches to a runnable environment.
-/

namespace MosVolca

open TailQueue

/-- The head of `env_sched_list` is taken as the next environment to run. -/
def pickEnv (k : Kern) : Kernel (EnvPtr × Kern) :=
  match k.envSchedList.first with
  | none => throw (.panic "There is no runnable env!\n")
  | some e => pure (e, { k with count := (k.envs e).pri })

/-- If the current environment is still runnable, it goes to the tail of `env_sched_list`. -/
def requeue (k : Kern) : Kernel Kern :=
  match k.curenv with
  | some e =>
    if (k.envs e).status = .runnable then do
      let q ← deref (k.envSchedList.remove e)
      let q ← deref (q.insertTail e)
      pure { k with envSchedList := q }
    else pure k
  | none => pure k

/-- The environment that `schedule` keeps running: the current one, if it is runnable, has time
left and does not yield. -/
def stays (k : Kern) (yield : Bool) : Option EnvPtr :=
  match k.curenv with
  | some e => if yield ∨ k.count = 0 ∨ (k.envs e).status ≠ .runnable then none else some e
  | none => none

/-- `schedule`. -/
def schedule (k : Kern) (yield : Bool) : Kernel Kern := do
  let (e, k) ← match stays k yield with
    | some e => pure (e, k)
    | none => do
      let k ← requeue k
      pickEnv k
  envRun { k with count := k.count - 1 } e

/-- `env_destroy`: the flag is false when it does not return, because `e` was running. -/
def envDestroy (M : Machine) (k : Kern) (e : EnvPtr) : Kernel (Bool × Kern) := do
  let k ← envFree M k e
  if k.curenv = some e then do
    let k ← schedule { k with curenv := none } true
    pure (false, k)
  else pure (true, k)

/-! ## What the scheduler changes -/

variable {k k' : Kern} {e : EnvPtr} {yield : Bool}

/-- Two environments that differ in the saved registers and the run count at most. -/
def Env.SameBut (x y : Env) : Prop := ∃ tf runs, y = { x with tf := tf, runs := runs }

lemma Env.SameBut.refl (x : Env) : x.SameBut x := ⟨x.tf, x.runs, rfl⟩

lemma Env.SameBut.trans {x y z : Env} (h : x.SameBut y) (h' : y.SameBut z) : x.SameBut z := by
  obtain ⟨tf, runs, rfl⟩ := h
  obtain ⟨tf', runs', rfl⟩ := h'
  exact ⟨tf', runs', rfl⟩

lemma Kern.setEnv_sameBut (k : Kern) (e : EnvPtr) (f : Env → Env)
    (hf : (k.envs e).SameBut (f (k.envs e))) (x : EnvPtr) :
    (k.envs x).SameBut ((k.setEnv e f).envs x) := by
  exact forall_setEnv (P := fun x y => (k.envs x).SameBut y) hf (fun _ _ => Env.SameBut.refl _) x

/-- The kernel has switched to the environment `e`: apart from the queue and the scheduling
counters, only saved registers have changed. -/
structure Dispatched (k k' : Kern) (e : EnvPtr) : Prop where
  runnable : (k.envs e).status = .runnable
  cur : k'.curenv = some e
  curPgdir : k'.curPgdir = (k.envs e).pgdir
  pm : k'.pm = k.pm
  free : k'.envFreeList = k.envFreeList
  base : k'.basePgdir = k.basePgdir
  bitmap : k'.asidBitmap = k.asidBitmap
  envidCount : k'.envidCount = k.envidCount
  envs : ∀ x, (k.envs x).SameBut (k'.envs x)

lemma Dispatched.status (h : Dispatched k k' e) (x : EnvPtr) :
    (k'.envs x).status = (k.envs x).status := by
  obtain ⟨tf, runs, hx⟩ := h.envs x
  rw [hx]

lemma saveContext_sameBut (k : Kern) (x : EnvPtr) :
    (k.envs x).SameBut ((saveContext k).envs x) := by
  unfold saveContext
  split
  · refine k.setEnv_sameBut _ _ ?_ x
    exact ⟨_, _, rfl⟩
  · exact Env.SameBut.refl _

lemma switchTo_sameBut (k : Kern) (e x : EnvPtr) : (k.envs x).SameBut ((switchTo k e).envs x) :=
  Kern.setEnv_sameBut { k with curenv := some e } e (fun x => { x with runs := x.runs + 1 })
    ⟨(k.envs e).tf, (k.envs e).runs + 1, rfl⟩ x

/-- `saveContext` changes environments only. -/
lemma saveContext_eq (k : Kern) : saveContext k = { k with envs := (saveContext k).envs } := by
  unfold saveContext
  split <;> rfl

/-- `env_run` switches, and leaves the queue. -/
lemma envRun_dispatched (h : envRun k e = .ok k') :
    Dispatched k k' e ∧ k'.envSchedList = k.envSchedList := by
  unfold envRun at h
  split_ifs at h with hr
  simp only [pure_eq_ok, Except.ok.injEq] at h
  subst h
  have hs := saveContext_eq k
  refine ⟨⟨not_not.mp hr, rfl, ?_, ?_, ?_, ?_, ?_, ?_, fun x => ?_⟩, ?_⟩
  · obtain ⟨tf, runs, hx⟩ := (saveContext_sameBut k e).trans (switchTo_sameBut (saveContext k) e e)
    change ((switchTo (saveContext k) e).envs e).pgdir = _
    rw [hx]
  · exact (congrArg Kern.pm hs :)
  · exact (congrArg Kern.envFreeList hs :)
  · exact (congrArg Kern.basePgdir hs :)
  · exact (congrArg Kern.asidBitmap hs :)
  · exact (congrArg Kern.envidCount hs :)
  · exact (saveContext_sameBut k x).trans (switchTo_sameBut _ e x)
  · exact (congrArg Kern.envSchedList hs :)

/-- `schedule` keeps the current environment or takes the head of the queue, after it has moved
the current one to the tail if that is still runnable. -/
lemma schedule_cases (h : schedule k yield = .ok k') :
    (∃ e, stays k yield = some e ∧ Dispatched k k' e ∧ k'.envSchedList = k.envSchedList) ∨
      (∃ k1 e, stays k yield = none ∧ requeue k = .ok k1 ∧ k1.envSchedList.first = some e ∧
        Dispatched k1 k' e ∧ k'.envSchedList = k1.envSchedList) := by
  unfold schedule at h
  rcases hs : stays k yield with _ | e
  · right
    rw [hs] at h
    simp only [bind_eq_ok] at h
    obtain ⟨k1, hq, ⟨e, k2⟩, hp, h⟩ := h
    unfold pickEnv at hp
    rcases hf : k1.envSchedList.first with _ | f
    · simp [hf] at hp
    · simp only [hf, pure_eq_ok, Except.ok.injEq, Prod.mk.injEq] at hp
      obtain ⟨rfl, rfl⟩ := hp
      obtain ⟨hd, hl⟩ := envRun_dispatched h
      exact ⟨k1, f, rfl, hq, hf, ⟨hd.runnable, hd.cur, hd.curPgdir, hd.pm, hd.free, hd.base,
        hd.bitmap, hd.envidCount, hd.envs⟩, hl⟩
  · left
    rw [hs] at h
    simp only [pure_eq_ok, ok_bind] at h
    obtain ⟨hd, hl⟩ := envRun_dispatched h
    exact ⟨e, rfl, ⟨hd.runnable, hd.cur, hd.curPgdir, hd.pm, hd.free, hd.base, hd.bitmap,
      hd.envidCount, hd.envs⟩, hl⟩

/-- `requeue` changes nothing but the queue. -/
lemma requeue_cases (h : requeue k = .ok k') : k' = k ∨ ∃ e q1 q2, k.curenv = some e ∧
    (k.envs e).status = .runnable ∧ k.envSchedList.remove e = some q1 ∧
      q1.insertTail e = some q2 ∧ k' = { k with envSchedList := q2 } := by
  unfold requeue at h
  split at h
  case h_1 e hc =>
    split_ifs at h with hr
    · simp only [bind_eq_ok, deref_eq_ok, pure_eq_ok, Except.ok.injEq] at h
      obtain ⟨q1, h1, q2, h2, rfl⟩ := h
      exact Or.inr ⟨e, q1, q2, hc, hr, h1, h2, rfl⟩
    · simp only [pure_eq_ok, Except.ok.injEq] at h
      exact Or.inl h.symm
  case h_2 =>
    simp only [pure_eq_ok, Except.ok.injEq] at h
    exact Or.inl h.symm

/-- **`schedule` switches to a runnable environment** and changes nothing but the queue, the
scheduling counters and saved registers. -/
theorem schedule_dispatched (h : schedule k yield = .ok k') : ∃ e, Dispatched k k' e := by
  rcases schedule_cases h with ⟨e, -, hd, -⟩ | ⟨k1, e, -, hq, -, hd, -⟩
  · exact ⟨e, hd⟩
  · rcases requeue_cases hq with rfl | ⟨_, _, _, -, -, -, -, rfl⟩
    · exact ⟨e, hd⟩
    · exact ⟨e, hd.runnable, hd.cur, hd.curPgdir, hd.pm, hd.free, hd.base, hd.bitmap,
        hd.envidCount, hd.envs⟩

end MosVolca
