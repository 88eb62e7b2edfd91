import MosVolca.Kern.UserPointers
import MosVolca.Lib.Memory
import MosVolca.Library.CString

/-!
# Buffered debug output

`debugf` of `user/lib/debugf.c`: what `vprintfmt` puts out goes to a buffer of 1024 bytes on the
stack, which is handed to the kernel when it is full and at the end. A chunk is memory of the
program beside the buffer, so that the sum of a chunk's length and the fill level does not wrap.

## Main definitions

* `MosVolca.DebugCtx`, `MosVolca.OutputCall` — the buffer, and what is put out.
* `MosVolca.debugFlush`, `MosVolca.debugOutput`, `MosVolca.vdebugf` — the functions.
* `MosVolca.Debug.Keeps` — what has been put out is printed or in the buffer.

## Main results

* `MosVolca.Debug.Keeps.output` — a chunk of any length comes out intact.
* `MosVolca.vdebugf_output` — all chunks are printed, in strings of 1 to 1024 bytes.
-/

namespace MosVolca

open ByteMemory WhileLoop

/-- `BUF_LEN`. -/
def bufLen : Word := 1024

/-- The place of a `struct debug_ctx`, the buffer followed by `pos`, among the program's memory. -/
structure DebugCtx where
  buf : Word
  below : buf.toNat + 1028 ≤ utop.toNat

/-- A call of `debug_output`: `l` bytes from `s` on, beside the buffer, and the memory that the
program has at that time. -/
structure OutputCall (ctx : DebugCtx) where
  s : Word
  l : Word
  user : Word → BitVec 8
  fits : s.toNat + l.toNat ≤ 2 ^ 32
  apart : s.toNat + l.toNat ≤ ctx.buf.toNat ∨ ctx.buf.toNat + 1028 ≤ s.toNat

/-- `n` bytes of the memory. -/
def bytesOf (user : Word → BitVec 8) (va : Word) (n : ℕ) : List (BitVec 8) :=
  CString.bytes (bytesAt user va) n

def OutputCall.bytes {ctx : DebugCtx} (c : OutputCall ctx) : List (BitVec 8) := bytesOf c.user c.s c.l.toNat

/-- The program with its debug output: the memory and the console, the fill level of the buffer, and
a record of the strings for the kernel and of the calls of `memcpy`. -/
structure Debug where
  u : UserKern
  pos : Word
  strings : List (List (BitVec 8))
  copies : List (Word × Word × Word)

/-- `memcpy(dst, src, n)`. -/
def Debug.memcpy (d : Debug) (dst src n : Word) : Debug :=
  { d with
    u := { d.u with user := overlay d.u.user dst (bytesAt d.u.user src) n.toNat }
    copies := d.copies ++ [(dst, src, n)] }

/-- `debug_flush`; there is no result if the kernel refuses the string and the program panics. -/
def debugFlush (ctx : DebugCtx) (d : Debug) : Option Debug :=
  if d.pos = 0 then some d
  else
    let r := d.u.sysPrintCons ctx.buf d.pos
    if r.1 ≠ 0 then none
    else some { d with
      u := r.2
      pos := 0
      strings := d.strings ++ [bytesOf d.u.user ctx.buf d.pos.toNat] }

/-- The variables of `debug_output`. -/
structure OutputVars where
  d : Debug
  s : Word
  l : Word

/-- A round of the splitting loop. -/
def outputRound (ctx : DebugCtx) (v : OutputVars) : Option OutputVars := do
  let n := bufLen - v.d.pos
  let d := v.d.memcpy (ctx.buf + v.d.pos) v.s n
  let d ← debugFlush ctx { d with pos := bufLen }
  pure { d, s := v.s + n, l := v.l - n }

/-- `debug_output`. -/
def debugOutput (fuel : ℕ) (ctx : DebugCtx) (d : Debug) (s l : Word) : Option Debug := do
  let v ← runM (fun v => decide (v.d.pos + v.l > bufLen)) (outputRound ctx) fuel ⟨d, s, l⟩
  let d := v.d.memcpy (ctx.buf + v.d.pos) v.s v.l
  pure { d with pos := d.pos + v.l }

/-- A call with a chunk: the memory beside the buffer is what the program has made of it. -/
def Debug.during {ctx : DebugCtx} (d : Debug) (c : OutputCall ctx) : Debug :=
  { d with u := { d.u with
    user := fun a => if (a - ctx.buf).toNat < 1028 then d.u.user a else c.user a } }

/-- `vdebugf`, where `vprintfmt` puts out the chunks. -/
def vdebugf (fuel : ℕ) (ctx : DebugCtx) (u : UserKern) (chunks : List (OutputCall ctx)) :
    Option Debug := do
  let d ← chunks.foldlM (fun d c => debugOutput fuel ctx (d.during c) c.s c.l)
    { u, pos := 0, strings := [], copies := [] }
  debugFlush ctx d

/-! ## What has been put out -/

variable {ctx : DebugCtx} {d d' : Debug} {console out : List (BitVec 8)} {src n : Word}
  {user : Word → BitVec 8}

/-- What has been put out is in the strings for the kernel or in the buffer. The strings are not
empty and fit into the buffer, the console has them, and `memcpy` was called for ranges that it
copies correctly, into the buffer. -/
structure Debug.Keeps (ctx : DebugCtx) (console out : List (BitVec 8)) (d : Debug) : Prop where
  pos_le : d.pos.toNat ≤ 1024
  out_eq : d.strings.flatten ++ bytesOf d.u.user ctx.buf d.pos.toNat = out
  strings_length : ∀ x ∈ d.strings, x ≠ [] ∧ x.length ≤ 1024
  console_eq : d.u.console = console ++ d.strings.flatten
  copies : ∀ c ∈ d.copies, ctx.buf.toNat ≤ c.1.toNat ∧
    c.1.toNat + c.2.2.toNat ≤ ctx.buf.toNat + 1024 ∧ Copies c.1 c.2.1 c.2.2

lemma bytesOf_add (user : Word → BitVec 8) (va : Word) (m n : ℕ) :
    bytesOf user va (m + n) = bytesOf user va m ++ bytesOf user (va + BitVec.ofNat 32 m) n := by
  unfold bytesOf CString.bytes
  rw [List.range_add, List.map_append, List.map_map]
  congr 2
  funext j
  simp only [Function.comp_apply, bytesAt]
  rw [BitVec.ofNat_add, BitVec.add_assoc]

lemma bytesOf_congr {user user' : Word → BitVec 8} {va va' : Word} {n : ℕ}
    (h : ∀ j < n, bytesAt user va j = bytesAt user' va' j) :
    bytesOf user va n = bytesOf user' va' n :=
  CString.bytes_congr h

@[simp] lemma bytesOf_zero (user : Word → BitVec 8) (va : Word) : bytesOf user va 0 = [] := rfl

@[simp] lemma length_bytesOf (user : Word → BitVec 8) (va : Word) (n : ℕ) :
    (bytesOf user va n).length = n :=
  CString.length_bytes _ n

lemma bufLen_toNat : bufLen.toNat = 1024 := rfl

lemma DebugCtx.buf_add_le (ctx : DebugCtx) : ctx.buf.toNat + 1028 ≤ 0x7f400000 := by
  have h := ctx.below
  rwa [utop_toNat] at h

/-- **The kernel takes every full or partial buffer**, and nothing is lost by that. -/
lemma Debug.Keeps.flush (h : d.Keeps ctx console out) :
    ∃ d', debugFlush ctx d = some d' ∧ d'.Keeps ctx console out ∧ d'.pos = 0 ∧
      d'.u.user = d.u.user := by
  obtain ⟨hpos, hout, hstr, hcon, hcop⟩ := h
  unfold debugFlush
  by_cases h0 : d.pos = 0
  · exact ⟨d, if_pos h0, ⟨hpos, hout, hstr, hcon, hcop⟩, h0, rfl⟩
  · have hb := ctx.buf_add_le
    have hok : ¬ (ctx.buf + d.pos > utop ∨ ctx.buf ≥ utop ∨ ctx.buf > ctx.buf + d.pos) := by
      simp only [gt_iff_lt, ge_iff_le, BitVec.lt_def, BitVec.le_def, BitVec.toNat_add, utop_toNat]
      omega
    have hprint : d.u.sysPrintCons ctx.buf d.pos = (0, { d.u with
        console := d.u.console ++ bytesOf d.u.user ctx.buf d.pos.toNat }.touch ctx.buf
          d.pos.toNat) := if_neg hok
    have hne : d.pos.toNat ≠ 0 := fun h => h0 (BitVec.eq_of_toNat_eq h)
    rw [if_neg h0, hprint]
    refine ⟨_, if_neg (by simp), ⟨?_, ?_, ?_, ?_, hcop⟩, rfl, rfl⟩
    · exact Nat.zero_le _
    · rw [List.flatten_append, List.flatten_singleton, ← hout]
      exact List.append_nil _
    · intro x hx
      rcases List.mem_append.mp hx with hx | hx
      · exact hstr x hx
      · obtain rfl := List.mem_singleton.mp hx
        refine ⟨fun hnil => hne ?_, ?_⟩
        · have hlen := congrArg List.length hnil
          rwa [length_bytesOf] at hlen
        · rw [length_bytesOf]
          exact hpos
    · rw [List.flatten_append, List.flatten_singleton, ← List.append_assoc, ← hcon]
      rfl

/-- A place behind the buffer's fill level. -/
lemma buf_add_toNat (ctx : DebugCtx) (hpos : d.pos.toNat ≤ 1024) :
    (ctx.buf + d.pos).toNat = ctx.buf.toNat + d.pos.toNat := by
  have hb := ctx.buf_add_le
  rw [BitVec.toNat_add]
  omega

/-- A part of the buffer that is written does not wrap, and is not the source. -/
lemma apart_buf (ctx : DebugCtx) (hpos : d.pos.toNat + n.toNat ≤ 1024) (hfits : src.toNat + n.toNat ≤ 2 ^ 32)
    (hapart : src.toNat + n.toNat ≤ ctx.buf.toNat ∨ ctx.buf.toNat + 1028 ≤ src.toNat) :
    Apart (ctx.buf + d.pos) src n := by
  have hb := ctx.buf_add_le
  have hadd := buf_add_toNat ctx (d := d) (by omega)
  exact ⟨by omega, hfits, by omega⟩

/-- **The bytes that fit are appended to the buffer**, and the rest of the memory stays. -/
lemma Debug.Keeps.append (h : d.Keeps ctx console out) (hpos : d.pos.toNat + n.toNat ≤ 1024)
    (hfits : src.toNat + n.toNat ≤ 2 ^ 32)
    (hapart : src.toNat + n.toNat ≤ ctx.buf.toNat ∨ ctx.buf.toNat + 1028 ≤ src.toNat) :
    { d.memcpy (ctx.buf + d.pos) src n with pos := d.pos + n }.Keeps ctx console
        (out ++ bytesOf d.u.user src n.toNat) ∧
      ∀ a, 1024 ≤ (a - ctx.buf).toNat →
        (d.memcpy (ctx.buf + d.pos) src n).u.user a = d.u.user a := by
  have hb := ctx.buf_add_le
  have hadd := buf_add_toNat ctx (d := d) (by omega)
  have hap := apart_buf ctx (d := d) hpos hfits hapart
  have hposn : (d.pos + n).toNat = d.pos.toNat + n.toNat := by
    rw [BitVec.toNat_add]
    omega
  have hof : ctx.buf + d.pos = ctx.buf + BitVec.ofNat 32 d.pos.toNat := by
    rw [BitVec.ofNat_toNat, BitVec.setWidth_eq]
  have hcopies : Copies (ctx.buf + d.pos) src n := by
    refine copies_of_lt hap ?_
    split_ifs
    · exact Or.inl (by omega)
    · omega
  refine ⟨⟨by rw [hposn]; exact hpos, ?_, h.strings_length, h.console_eq, ?_⟩, fun a ha => ?_⟩
  · -- the bytes before the fill level stay, those behind it are the source's
    have hold : bytesOf (d.memcpy (ctx.buf + d.pos) src n).u.user ctx.buf d.pos.toNat =
        bytesOf d.u.user ctx.buf d.pos.toNat := by
      refine bytesOf_congr fun j hj => overlay_of_le ?_
      rw [BitVec.toNat_sub, hadd, BitVec.toNat_add, BitVec.toNat_ofNat]
      omega
    have hnew : bytesOf (d.memcpy (ctx.buf + d.pos) src n).u.user (ctx.buf + d.pos) n.toNat =
        bytesOf d.u.user src n.toNat :=
      bytesOf_congr fun j hj => overlay_add n.isLt.le hj
    simp only
    rw [hposn, bytesOf_add, ← hof, hold, hnew, ← List.append_assoc]
    exact congrArg (· ++ bytesOf d.u.user src n.toNat) h.out_eq
  · intro c hc
    rcases List.mem_append.mp hc with hc | hc
    · exact h.copies c hc
    · obtain rfl := List.mem_singleton.mp hc
      exact ⟨by simp only; omega, by simp only; omega, hcopies⟩
  · refine overlay_of_le ?_
    rw [BitVec.toNat_sub] at ha
    rw [BitVec.toNat_sub, hadd]
    omega

/-- The chunk is not changed by what is written to the buffer. -/
lemma OutputCall.le_toNat_sub (c : OutputCall ctx) {j : ℕ} (hj : j < c.l.toNat) :
    1028 ≤ (c.s + BitVec.ofNat 32 j - ctx.buf).toNat := by
  have hb := ctx.buf_add_le
  have hf := c.fits
  have ha := c.apart
  rw [BitVec.toNat_sub, BitVec.toNat_add, BitVec.toNat_ofNat]
  omega

/-- The splitting loop after `k` bytes of the chunk: they are put out, the rest of the chunk is as
it was. The count `i` goes on also when a full buffer is flushed and nothing is copied. -/
structure OutputVars.Split (c : OutputCall ctx) (console out : List (BitVec 8)) (i : ℕ)
    (v : OutputVars) : Prop where
  keeps : v.d.Keeps ctx console (out ++ bytesOf c.user c.s (c.l.toNat - v.l.toNat))
  l_le : v.l.toNat ≤ c.l.toNat
  s_eq : v.s = c.s + BitVec.ofNat 32 (c.l.toNat - v.l.toNat)
  rest : ∀ j < c.l.toNat, bytesAt v.d.u.user c.s j = bytesAt c.user c.s j
  count : i = 2 * (c.l.toNat - v.l.toNat) + if v.d.pos.toNat = 1024 then 0 else 1

variable {c : OutputCall ctx} {v : OutputVars} {i : ℕ}

/-- The length of the chunk and the fill level do not wrap. -/
lemma OutputVars.Split.toNat_add (h : v.Split c console out i) :
    (v.d.pos + v.l).toNat = v.d.pos.toNat + v.l.toNat := by
  have hb := ctx.buf_add_le
  have hf := c.fits
  have ha := c.apart
  have hl := h.l_le
  have hp := h.keeps.pos_le
  rw [BitVec.toNat_add]
  omega

/-- The next bytes of the chunk, with `n` bytes that fit into the buffer. -/
lemma OutputVars.Split.append (h : v.Split c console out i) (hpos : v.d.pos.toNat + n.toNat ≤ 1024)
    (hn : n.toNat ≤ v.l.toNat) :
    { v.d.memcpy (ctx.buf + v.d.pos) v.s n with pos := v.d.pos + n }.Keeps ctx console
        (out ++ bytesOf c.user c.s (c.l.toNat - v.l.toNat + n.toNat)) ∧
      ∀ j < c.l.toNat,
        bytesAt (v.d.memcpy (ctx.buf + v.d.pos) v.s n).u.user c.s j = bytesAt c.user c.s j := by
  have hf := c.fits
  have ha := c.apart
  have hl := h.l_le
  have hs : v.s.toNat = (c.s.toNat + (c.l.toNat - v.l.toNat)) % 2 ^ 32 := by
    rw [h.s_eq, BitVec.toNat_add, BitVec.toNat_ofNat, Nat.add_mod_mod]
  have hlt := c.l.isLt
  obtain ⟨hkeeps, hframe⟩ := h.keeps.append hpos (by omega) (by omega : v.s.toNat + n.toNat ≤
    ctx.buf.toNat ∨ ctx.buf.toNat + 1028 ≤ v.s.toNat)
  have hnext : bytesOf v.d.u.user v.s n.toNat =
      bytesOf c.user (c.s + BitVec.ofNat 32 (c.l.toNat - v.l.toNat)) n.toNat := by
    refine bytesOf_congr fun j hj => ?_
    have hrest := h.rest (c.l.toNat - v.l.toNat + j) (by omega)
    unfold bytesAt at hrest ⊢
    rw [BitVec.ofNat_add, ← BitVec.add_assoc] at hrest
    rw [h.s_eq]
    exact hrest
  refine ⟨?_, fun j hj => ?_⟩
  · rw [bytesOf_add, ← hnext, ← List.append_assoc]
    exact hkeeps
  · have hj' := c.le_toNat_sub hj
    exact (hframe _ (by omega)).trans (h.rest j hj)

/-- **A round of the splitting loop** fills the buffer and empties it. -/
lemma OutputVars.Split.round (h : v.Split c console out i)
    (hc : decide (v.d.pos + v.l > bufLen) = true) :
    ∃ j v', i < j ∧ j ≤ 2 * c.l.toNat + 1 ∧ outputRound ctx v = some v' ∧
      v'.Split c console out j := by
  have hl := h.l_le
  have hp := h.keeps.pos_le
  have hi := h.count
  rw [decide_eq_true_eq, gt_iff_lt, BitVec.lt_def, h.toNat_add, bufLen_toNat] at hc
  have hn : (bufLen - v.d.pos).toNat = 1024 - v.d.pos.toNat := by
    rw [BitVec.toNat_sub_of_le (by rw [BitVec.le_def, bufLen_toNat]; exact hp), bufLen_toNat]
  have hl' : (v.l - (bufLen - v.d.pos)).toNat = v.l.toNat - (1024 - v.d.pos.toNat) := by
    rw [BitVec.toNat_sub_of_le (by rw [BitVec.le_def]; omega), hn]
  obtain ⟨hkeeps, hrest⟩ := h.append (n := bufLen - v.d.pos) (by omega) (by omega)
  rw [BitVec.add_comm v.d.pos, BitVec.sub_add_cancel] at hkeeps
  obtain ⟨d', hflush, hkeeps', hpos', huser⟩ := hkeeps.flush
  refine ⟨2 * (c.l.toNat - v.l.toNat + (1024 - v.d.pos.toNat)) + 1,
    ⟨d', v.s + (bufLen - v.d.pos), v.l - (bufLen - v.d.pos)⟩, ?_, by omega, ?_, ?_, ?_, ?_, ?_, ?_⟩
  · split_ifs at hi <;> omega
  · unfold outputRound
    simp only [hflush, Option.bind_eq_bind, Option.bind_some]
    rfl
  · rw [hn] at hkeeps'
    rw [hl', show c.l.toNat - (v.l.toNat - (1024 - v.d.pos.toNat)) =
      c.l.toNat - v.l.toNat + (1024 - v.d.pos.toNat) by omega]
    exact hkeeps'
  · rw [hl']
    omega
  · rw [hl', h.s_eq, show c.l.toNat - (v.l.toNat - (1024 - v.d.pos.toNat)) =
      c.l.toNat - v.l.toNat + (1024 - v.d.pos.toNat) by omega, BitVec.ofNat_add, BitVec.add_assoc,
      ← hn, BitVec.ofNat_toNat, BitVec.setWidth_eq]
  · intro j hj
    rw [← hrest j hj]
    exact congrFun huser _
  · rw [hl', hpos', if_neg (by decide)]
    omega

/-- Between two calls the program does not touch the buffer. -/
lemma Debug.Keeps.during (h : d.Keeps ctx console out) (c : OutputCall ctx) :
    (d.during c).Keeps ctx console out := by
  refine ⟨h.pos_le, ?_, h.strings_length, h.console_eq, h.copies⟩
  have hp := h.pos_le
  have hbuf : bytesOf (d.during c).u.user ctx.buf d.pos.toNat =
      bytesOf d.u.user ctx.buf d.pos.toNat := by
    refine bytesOf_congr fun j hj => if_pos ?_
    rw [toNat_add_sub (by omega)]
    omega
  have hout := h.out_eq
  rwa [← hbuf] at hout

/-- **A chunk of any length comes out intact.** -/
theorem Debug.Keeps.output (h : d.Keeps ctx console out) (c : OutputCall ctx) {fuel : ℕ}
    (hf : 2 * c.l.toNat + 1 < fuel) :
    ∃ d', debugOutput fuel ctx (d.during c) c.s c.l = some d' ∧
      d'.Keeps ctx console (out ++ c.bytes) := by
  have hstart : (⟨d.during c, c.s, c.l⟩ : OutputVars).Split c console out
      (2 * (c.l.toNat - c.l.toNat) + if (d.during c).pos.toNat = 1024 then 0 else 1) := by
    refine ⟨?_, le_rfl, ?_, fun j hj => ?_, rfl⟩
    · simpa using h.during c
    · simp
    · have hj' := c.le_toNat_sub hj
      exact if_neg (by omega)
  obtain ⟨j, v, hrun, -, -, hv, hc⟩ := exists_runM (n := 2 * c.l.toNat + 1)
    (fun i v hv hc => hv.round hc) hstart (by split_ifs <;> omega)
    (hf.trans_le (Nat.le_add_left _ _))
  rw [decide_eq_false_iff_not, gt_iff_lt, BitVec.lt_def, hv.toNat_add, bufLen_toNat] at hc
  have hl := hv.l_le
  obtain ⟨hkeeps, -⟩ := hv.append (n := v.l) (by omega) le_rfl
  rw [Nat.sub_add_cancel hl] at hkeeps
  refine ⟨_, ?_, hkeeps⟩
  unfold debugOutput
  rw [hrun]
  rfl

/-- Any sequence of chunks. -/
lemma Debug.Keeps.outputs {fuel : ℕ} (hf : 2 ^ 33 ≤ fuel) (chunks : List (OutputCall ctx))
    (h : d.Keeps ctx console out) :
    ∃ d', chunks.foldlM (fun d c => debugOutput fuel ctx (d.during c) c.s c.l) d = some d' ∧
      d'.Keeps ctx console (out ++ (chunks.map OutputCall.bytes).flatten) := by
  induction chunks generalizing d out with
  | nil => exact ⟨d, rfl, by simpa using h⟩
  | cons c chunks ih =>
    have hl := c.l.isLt
    obtain ⟨d₁, hd₁, h₁⟩ := h.output c (by omega : 2 * c.l.toNat + 1 < fuel)
    obtain ⟨d₂, hd₂, h₂⟩ := ih h₁
    refine ⟨d₂, ?_, ?_⟩
    · rw [List.foldlM_cons, hd₁]
      exact hd₂
    · rw [List.map_cons, List.flatten_cons, ← List.append_assoc]
      exact h₂

/-- **Buffered output is unbuffered output**: whatever is put out, the loops end and the kernel
accepts every string; the strings are those bytes, in pieces of 1 to 1024, and the calls of
`memcpy`, which copy what they should, write into the buffer only. -/
theorem vdebugf_output (ctx : DebugCtx) (u : UserKern) (chunks : List (OutputCall ctx)) :
    ∃ fuel d, vdebugf fuel ctx u chunks = some d ∧
      d.strings.flatten = (chunks.map OutputCall.bytes).flatten ∧
      d.u.console = u.console ++ (chunks.map OutputCall.bytes).flatten ∧
      (∀ x ∈ d.strings, x ≠ [] ∧ x.length ≤ bufLen.toNat) ∧
      ∀ c ∈ d.copies, ctx.buf.toNat ≤ c.1.toNat ∧
        c.1.toNat + c.2.2.toNat ≤ ctx.buf.toNat + bufLen.toNat ∧ Copies c.1 c.2.1 c.2.2 := by
  have hinit : Debug.Keeps ctx u.console [] { u, pos := 0, strings := [], copies := [] } :=
    ⟨Nat.zero_le _, by simp, by simp, by simp, by simp⟩
  obtain ⟨d₁, hd₁, h₁⟩ := hinit.outputs le_rfl chunks
  obtain ⟨d, hd, h, hpos, -⟩ := h₁.flush
  have hout := h.out_eq
  have hzero : (0 : Word).toNat = 0 := rfl
  rw [hpos, List.nil_append, hzero, bytesOf_zero, List.append_nil] at hout
  refine ⟨2 ^ 33, d, ?_, hout, ?_, h.strings_length, h.copies⟩
  · unfold vdebugf
    rw [hd₁]
    exact hd
  · rw [h.console_eq, hout]

/-- A buffer on the stack. -/
def stackCtx : DebugCtx := ⟨0x7F3FD000, by decide⟩

/-- Two characters below it. -/
def textCall : OutputCall stackCtx where
  s := 0x400000
  l := 2
  user := fun _ => 0x61
  fits := by decide
  apart := by decide

/-- They are put out twice. -/
theorem vdebugf_output_twice : ∃ fuel d,
    vdebugf fuel stackCtx clearUser [textCall, textCall] = some d ∧
      d.u.console = [0x61, 0x61, 0x61, 0x61] := by
  obtain ⟨fuel, d, hd, -, hconsole, -⟩ := vdebugf_output stackCtx clearUser [textCall, textCall]
  exact ⟨fuel, d, hd, hconsole⟩

end MosVolca
