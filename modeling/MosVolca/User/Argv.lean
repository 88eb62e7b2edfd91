import MosVolca.User.Gettoken
import MosVolca.User.Redirections

/-!
# The arguments of a command

What `parsecmd` and `runcmd` of `user/sh.c` do with `argv`: the entries that they store, and the
strings that `spawn` finds there. The value of a variable is fetched into an array of `parsecmd`
itself, of which `argv` only gets the address: when `spawn` reads the strings, `parsecmd` has
returned, and the array holds what the stack holds by then. All references of a command use the same
array.

## Main definitions

* `MosVolca.Part` — the parts of a command, also references to variables.
* `MosVolca.argvStores` — the entries of `argv` that are stored.
* `MosVolca.Overflowing` — the lines with a command that does not fit.
* `MosVolca.spawned`, `MosVolca.intended` — the strings that commands get, and those they should.
* `MosVolca.SpawnsReference` — the lines with a command that has a reference and runs.

## Main results

* `MosVolca.argv_inBounds_iff` — when all entries are in the array.
* `MosVolca.references_expand_iff` — when every command gets the strings it should.
-/

namespace MosVolca

/-! ## The parts of a command -/

/-- A part of a command: a word, `$name`, `< t`, `> t` or a parenthesis. -/
inductive Part
  | word (t : Text)
  | reference (name : Text)
  | input (t : Text)
  | output (t : Text)
  | paren (left : Bool)

/-- The tokens of a part. -/
def Part.tokens : Part → List Token
  | .word t => [.word t]
  | .reference name => [.dollar, .word name]
  | .input t => [.less, .word t]
  | .output t => [.greater, .word t]
  | .paren left => [if left then .lparen else .rparen]

/-- The part is an argument. -/
def Part.isArg : Part → Bool
  | .word _ | .reference _ => true
  | _ => false

/-- The tokens of a command. -/
def partTokens (cmd : List Part) : List Token := cmd.flatMap Part.tokens

/-- The number of arguments of a command. -/
def argCount (cmd : List Part) : ℕ := (cmd.filter Part.isArg).length

/-- `|`, `;` or `&`. -/
inductive Separator
  | bar
  | semi
  | amp

/-- The token of a separator. -/
def Separator.token : Separator → Token
  | .bar => .bar
  | .semi => .semi
  | .amp => .amp

/-- A command ends here: the line ends, or there is a separator. -/
def CommandEnds (rest : List Token) : Prop :=
  rest = [] ∨ ∃ (sep : Separator) (rest' : List Token), rest = sep.token :: rest'

/-! ## Stores -/

/-- `argv[argc] = 0` of `runcmd`. -/
def terminator (argc : ℕ) : List ℕ := if argc = 0 then [] else [argc]

/-- The entries of `argv` to which `parsecmd` and then `runcmd` store, from the call number `n` on,
with `argc` arguments before, in this environment and in those that it forks. -/
def argvStores (w : Calls) : (n argc : ℕ) → List Token → List ℕ
  | _, argc, [] => terminator argc
  | n, argc, .dollar :: .word _ :: rest =>
    if w.var n then argc :: argvStores w (n + 1) (argc + 1) rest else []
  | n, argc, .word _ :: rest =>
    if argc ≥ maxArgs then [] else argc :: argvStores w n (argc + 1) rest
  | n, argc, .less :: .word _ :: rest => argvStores w (n + 1) argc rest
  | n, argc, .greater :: .word _ :: rest => argvStores w (n + 1) argc rest
  | n, argc, .bar :: rest =>
    if w.fork n then argvStores w (n + 1) 0 rest ++ terminator argc else terminator argc
  | n, argc, .semi :: rest =>
    if w.fork n then terminator argc ++ argvStores w (n + 1) 0 rest else terminator argc
  | n, argc, .amp :: rest =>
    if w.fork n then terminator argc ++ argvStores w (n + 1) 0 rest
    else argvStores w (n + 1) 0 rest
  | n, argc, .lparen :: rest | n, argc, .rparen :: rest => argvStores w n argc rest
  | _, _, _ => []

/-- **The lines with a command that does not fit**: the first command of at least 128 arguments ends
after the 128th, or a reference follows there. -/
inductive Overflowing : List Token → Prop
  | ends {cmd rest} (hcmd : argCount cmd = maxArgs) (hrest : CommandEnds rest) :
      Overflowing (partTokens cmd ++ rest)
  | reference {cmd name rest} (hcmd : argCount cmd = maxArgs) :
      Overflowing (partTokens cmd ++ .dollar :: .word name :: rest)
  | later {cmd rest} (sep : Separator) (hcmd : argCount cmd < maxArgs) (h : Overflowing rest) :
      Overflowing (partTokens cmd ++ sep.token :: rest)

/-! ## Strings -/

/-- An argument by what the line says: a word, or the value of a variable. -/
inductive Source
  | word (t : Text)
  | value (name : Text)

/-- What `argv` has for an argument. -/
def Source.arg : Source → Arg
  | .word t => .word t
  | .value _ => .varBuf

/-- The string that is meant, where the variables have values. -/
def Source.intended (value : Text → Text) : Source → Text
  | .word t => t
  | .value name => value name

/-- The string that `spawn` reads, where the array of `parsecmd` holds `dead` by then. -/
def Arg.read (dead : Text) : Arg → Text
  | .word t => t
  | .varBuf => dead

/-- The arguments that `parsecmd` returns, by what the line says. -/
def parseSources (w : Calls) : ℕ → List Source → List Token → List (List Source)
  | _, srcs, [] => [srcs]
  | n, srcs, .dollar :: .word name :: rest =>
    if w.var n then parseSources w (n + 1) (srcs ++ [.value name]) rest else []
  | n, srcs, .word t :: rest =>
    if srcs.length ≥ maxArgs then [] else parseSources w n (srcs ++ [.word t]) rest
  | n, srcs, .less :: .word _ :: rest => parseSources w (n + 1) srcs rest
  | n, srcs, .greater :: .word _ :: rest => parseSources w (n + 1) srcs rest
  | n, srcs, .bar :: rest =>
    if w.fork n then parseSources w (n + 1) [] rest ++ [srcs] else [srcs]
  | n, srcs, .semi :: rest => if w.fork n then srcs :: parseSources w (n + 1) [] rest else [srcs]
  | n, srcs, .amp :: rest =>
    if w.fork n then srcs :: parseSources w (n + 1) [] rest else parseSources w (n + 1) [] rest
  | n, srcs, .lparen :: rest | n, srcs, .rparen :: rest => parseSources w n srcs rest
  | _, _, _ => []

/-- A command with these arguments is spawned. -/
def Spawns (srcs : List Source) : Prop := srcs ≠ [] ∧ srcs.length < maxArgs

instance (srcs : List Source) : Decidable (Spawns srcs) :=
  decidable_of_iff (srcs.isEmpty = false ∧ srcs.length < maxArgs) (by simp [Spawns])

/-- The strings that a command is spawned with. -/
def Run.strings (dead : Text) : Run → Option (List Text)
  | .spawn argv _ => some (argv.map (Arg.read dead))
  | .overrun => none

/-- The strings that the commands of a line are spawned with. -/
def spawned (w : Calls) (fds : FdTable) (dead : Text) (line : List Token) : List (List Text) :=
  (runcmd w fds line).filterMap (Run.strings dead)

/-- The strings that they should be spawned with. -/
def intended (w : Calls) (value : Text → Text) (line : List Token) : List (List Text) :=
  ((parseSources w 0 [] line).filter fun srcs => Spawns srcs).map fun srcs =>
    srcs.map (Source.intended value)

/-- The words of a command are among its first 128 arguments, where `k` come before. -/
def WordsFit : (k : ℕ) → List Part → Prop
  | _, [] => True
  | k, .word _ :: cmd => k < maxArgs ∧ WordsFit (k + 1) cmd
  | k, .reference _ :: cmd => WordsFit (k + 1) cmd
  | k, _ :: cmd => WordsFit k cmd

/-- **The lines with a command that has a reference and runs**, after commands that are not
refused. -/
inductive SpawnsReference : List Token → Prop
  | here {cmd rest name} (hname : Part.reference name ∈ cmd) (hcmd : argCount cmd < maxArgs)
      (hrest : CommandEnds rest) : SpawnsReference (partTokens cmd ++ rest)
  | later {cmd rest} (sep : Separator) (hcmd : WordsFit 0 cmd) (h : SpawnsReference rest) :
      SpawnsReference (partTokens cmd ++ sep.token :: rest)

section Stores

variable {w : Calls} {n argc i : ℕ} {fds : FdTable} {argv : List Arg} {cmd : List Part}
  {line rest : List Token}

lemma mem_terminator : i ∈ terminator argc ↔ argc ≠ 0 ∧ i = argc := by
  unfold terminator
  split <;> simp [*]

/-- What has been stored of the arguments that an environment returns with. -/
def Stored (p : Parsed) (argc : ℕ) (stores : List ℕ) : Prop :=
  (∀ i < p.argv.length, i < argc ∨ i ∈ stores) ∧ (p.argv ≠ [] → p.argv.length ∈ stores)

lemma Stored.mono {p : Parsed} {l l' : List ℕ} (h : Stored p argc l) (hl : l ⊆ l') :
    Stored p argc l' :=
  ⟨fun i hi => (h.1 i hi).imp_right fun hm => hl hm, fun hne => hl (h.2 hne)⟩

/-- The stores of a new command. -/
lemma Stored.of_zero {p : Parsed} {l : List ℕ} (h : Stored p 0 l) : Stored p argc l :=
  ⟨fun i hi => Or.inr ((h.1 i hi).resolve_left (Nat.not_lt_zero i)), h.2⟩

/-- The stores of an argument and of what follows. -/
lemma Stored.of_succ {p : Parsed} {l : List ℕ} (h : Stored p (argc + 1) l) :
    Stored p argc (argc :: l) := by
  refine ⟨fun i hi => ?_, fun hne => List.mem_cons_of_mem _ (h.2 hne)⟩
  rcases h.1 i hi with hlt | hm
  · rcases (Nat.lt_succ_iff_lt_or_eq.mp hlt) with hlt | rfl
    · exact Or.inl hlt
    · exact Or.inr List.mem_cons_self
  · exact Or.inr (List.mem_cons_of_mem _ hm)

lemma stored_terminator {b : Bool} : Stored ⟨argv, fds, b⟩ argv.length (terminator argv.length) :=
  ⟨fun _ hi => Or.inl hi, fun hne => mem_terminator.mpr ⟨mt List.length_eq_zero_iff.mp hne, rfl⟩⟩

/-- **What `parsecmd` returns has been stored**, and so is the null pointer after it. -/
theorem stores_of_parsecmd {p : Parsed} (hp : p ∈ parsecmd w n fds argv line) :
    Stored p argv.length (argvStores w n argv.length line) := by
  fun_induction parsecmd w n fds argv line with
  | case1 n fds argv =>
    obtain rfl := List.mem_singleton.mp hp
    exact stored_terminator
  | case2 n fds argv t rest hvar ih =>
    rw [argvStores, if_pos hvar]
    have h := ih hp
    rw [List.length_append, List.length_singleton] at h
    exact h.of_succ
  | case5 n fds argv t rest hfull ih =>
    rw [argvStores, if_neg hfull]
    have h := ih hp
    rw [List.length_append, List.length_singleton] at h
    exact h.of_succ
  | case6 n fds argv t rest ih => exact ih hp
  | case7 n fds argv t rest ih => exact ih hp
  | case8 n fds₀ argv rest p fds hpipe left hfork ih =>
    rw [argvStores, if_pos hfork]
    rcases List.mem_append.mp hp with hp | hp
    · exact (ih hp).of_zero.mono (List.subset_append_left _ _)
    · obtain rfl := List.mem_singleton.mp hp
      exact stored_terminator.mono (List.subset_append_right _ _)
  | case9 n fds₀ argv rest p fds hpipe left hfork =>
    rw [argvStores, if_neg hfork]
    obtain rfl := List.mem_singleton.mp hp
    exact stored_terminator
  | case10 n fds argv rest hfork ih =>
    rw [argvStores, if_pos hfork]
    rcases List.mem_cons.mp hp with rfl | hp
    · exact stored_terminator.mono (List.subset_append_left _ _)
    · exact (ih hp).of_zero.mono (List.subset_append_right _ _)
  | case11 n fds argv rest hfork =>
    rw [argvStores, if_neg hfork]
    obtain rfl := List.mem_singleton.mp hp
    exact stored_terminator
  | case12 n fds argv rest hfork ih =>
    rw [argvStores, if_pos hfork]
    rcases List.mem_cons.mp hp with rfl | hp
    · exact stored_terminator.mono (List.subset_append_left _ _)
    · exact (ih hp).of_zero.mono (List.subset_append_right _ _)
  | case13 n fds argv rest hfork ih =>
    rw [argvStores, if_neg hfork]
    exact (ih hp).of_zero
  | case14 n fds argv rest ih => exact ih hp
  | case15 n fds argv rest ih => exact ih hp
  | _ => cases hp

lemma partTokens_snoc (cmd : List Part) (p : Part) (rest : List Token) :
    partTokens (cmd ++ [p]) ++ rest = partTokens cmd ++ (p.tokens ++ rest) := by
  simp [partTokens]

lemma argCount_snoc (cmd : List Part) (p : Part) :
    argCount (cmd ++ [p]) = argCount cmd + if p.isArg then 1 else 0 := by
  unfold argCount
  rw [List.filter_append, List.length_append]
  cases h : p.isArg <;> simp [h]

lemma overflowing_sep (sep : Separator) (hn : argCount cmd = argc) (hfull : argc ≤ maxArgs)
    (h : argc = maxArgs ∨ Overflowing rest) :
    Overflowing (partTokens cmd ++ sep.token :: rest) := by
  by_cases hmax : argc = maxArgs
  · exact .ends (hn.trans hmax) (Or.inr ⟨sep, rest, rfl⟩)
  · exact .later sep (by omega) (h.resolve_left hmax)

/-- A store outside of the array comes from a command that does not fit. -/
lemma overflowing_of_store (hn : argCount cmd = argc) (hfull : argc ≤ maxArgs)
    (h : i ∈ argvStores w n argc line) (hi : maxArgs ≤ i) :
    Overflowing (partTokens cmd ++ line) := by
  have hterm : ∀ {argc : ℕ}, argc ≤ maxArgs → i ∈ terminator argc → argc = maxArgs := by
    intro argc hfull h
    obtain ⟨-, rfl⟩ := mem_terminator.mp h
    omega
  fun_induction argvStores w n argc line generalizing cmd with
  | case1 n argc => exact .ends (hn.trans (hterm hfull h)) (Or.inl rfl)
  | case2 n argc t rest _ ih =>
    by_cases hmax : argc = maxArgs
    · exact .reference (hn.trans hmax)
    · rw [show Token.dollar :: .word t :: rest = (Part.reference t).tokens ++ rest from rfl,
        ← partTokens_snoc]
      refine ih (by rw [argCount_snoc, hn]; rfl) (by omega) ?_
      exact (List.mem_cons.mp h).resolve_left (by omega)
  | case3 => cases h
  | case4 => cases h
  | case5 n argc t rest hlt ih =>
    rw [show Token.word t :: rest = (Part.word t).tokens ++ rest from rfl, ← partTokens_snoc]
    refine ih (by rw [argCount_snoc, hn]; rfl) (by omega) ?_
    exact (List.mem_cons.mp h).resolve_left (by omega)
  | case6 n argc t rest ih =>
    rw [show Token.less :: .word t :: rest = (Part.input t).tokens ++ rest from rfl,
      ← partTokens_snoc]
    exact ih (by rw [argCount_snoc, hn]; rfl) hfull h
  | case7 n argc t rest ih =>
    rw [show Token.greater :: .word t :: rest = (Part.output t).tokens ++ rest from rfl,
      ← partTokens_snoc]
    exact ih (by rw [argCount_snoc, hn]; rfl) hfull h
  | case8 n argc rest _ ih =>
    refine overflowing_sep .bar hn hfull ?_
    exact ((List.mem_append.mp h).symm.imp (hterm hfull) fun h => @ih [] rfl (Nat.zero_le _) h)
  | case9 n argc rest => exact overflowing_sep .bar hn hfull (Or.inl (hterm hfull h))
  | case10 n argc rest _ ih =>
    refine overflowing_sep .semi hn hfull ?_
    exact ((List.mem_append.mp h).imp (hterm hfull) fun h => @ih [] rfl (Nat.zero_le _) h)
  | case11 n argc rest => exact overflowing_sep .semi hn hfull (Or.inl (hterm hfull h))
  | case12 n argc rest _ ih =>
    refine overflowing_sep .amp hn hfull ?_
    exact ((List.mem_append.mp h).imp (hterm hfull) fun h => @ih [] rfl (Nat.zero_le _) h)
  | case13 n argc rest _ ih =>
    exact overflowing_sep .amp hn hfull (Or.inr (@ih [] rfl (Nat.zero_le _) h))
  | case14 n argc rest ih =>
    rw [show Token.lparen :: rest = (Part.paren true).tokens ++ rest from rfl, ← partTokens_snoc]
    exact ih (by rw [argCount_snoc, hn]; rfl) hfull h
  | case15 n argc rest ih =>
    rw [show Token.rparen :: rest = (Part.paren false).tokens ++ rest from rfl, ← partTokens_snoc]
    exact ih (by rw [argCount_snoc, hn]; rfl) hfull h
  | case16 => cases h

/-- The stores for what follows a part for which there is room. -/
lemma stores_part (p : Part) (n : ℕ) (hfull : p.isArg = true → argc < maxArgs)
    (rest : List Token) : ∃ n', argvStores .willing n' (argc + if p.isArg then 1 else 0) rest ⊆
      argvStores .willing n argc (p.tokens ++ rest) := by
  cases p with
  | word t =>
    refine ⟨n, ?_⟩
    change _ ⊆ argvStores .willing n argc (.word t :: rest)
    rw [argvStores, if_neg (Nat.not_le.mpr (hfull rfl))]
    exact List.subset_cons_self _ _
  | reference name =>
    refine ⟨n + 1, ?_⟩
    change _ ⊆ argvStores .willing n argc (.dollar :: .word name :: rest)
    rw [argvStores, if_pos (show Calls.willing.var n = true from rfl)]
    exact List.subset_cons_self _ _
  | input t => exact ⟨n + 1, List.Subset.refl _⟩
  | output t => exact ⟨n + 1, List.Subset.refl _⟩
  | paren left => exact ⟨n, by cases left <;> exact List.Subset.refl _⟩

lemma argCount_cons (p : Part) (cmd : List Part) :
    argCount (p :: cmd) = (if p.isArg then 1 else 0) + argCount cmd := by
  unfold argCount
  rw [List.filter_cons]
  split
  · rw [List.length_cons, Nat.add_comm]
  · rw [Nat.zero_add]

/-- The stores for what follows a command for which there is room. -/
lemma stores_partTokens (argc n : ℕ) (hfull : argc + argCount cmd ≤ maxArgs) (rest : List Token) :
    ∃ n', argvStores .willing n' (argc + argCount cmd) rest ⊆
      argvStores .willing n argc (partTokens cmd ++ rest) := by
  induction cmd generalizing n argc with
  | nil => exact ⟨n, List.Subset.refl _⟩
  | cons p cmd ih =>
    rw [argCount_cons, ← Nat.add_assoc] at hfull ⊢
    have hroom : p.isArg = true → argc < maxArgs := by
      intro hp
      rw [if_pos hp] at hfull
      omega
    obtain ⟨n', hpart⟩ := stores_part p n hroom (partTokens cmd ++ rest)
    obtain ⟨n'', hcmd⟩ := ih _ n' hfull
    refine ⟨n'', fun i hi => ?_⟩
    rw [show partTokens (p :: cmd) ++ rest = p.tokens ++ (partTokens cmd ++ rest) by
      simp [partTokens]]
    exact hpart (hcmd hi)

lemma terminator_subset (n : ℕ) (hrest : CommandEnds rest) :
    terminator argc ⊆ argvStores .willing n argc rest := by
  rcases hrest with rfl | ⟨sep, rest, rfl⟩
  · exact List.Subset.refl _
  · cases sep with
    | bar => exact List.subset_append_right _ _
    | semi => exact List.subset_append_left _ _
    | amp => exact List.subset_append_left _ _

lemma stores_next (n : ℕ) (sep : Separator) (rest : List Token) :
    argvStores .willing (n + 1) 0 rest ⊆ argvStores .willing n argc (sep.token :: rest) := by
  cases sep with
  | bar => exact List.subset_append_left _ _
  | semi => exact List.subset_append_right _ _
  | amp => exact List.subset_append_right _ _

/-- A command that does not fit leads to a store outside of the array. -/
lemma maxArgs_mem_stores (h : Overflowing line) (n : ℕ) :
    maxArgs ∈ argvStores .willing n 0 line := by
  induction h generalizing n with
  | @ends cmd rest hcmd hrest =>
    obtain ⟨n', hsub⟩ := stores_partTokens 0 n (by rw [hcmd, Nat.zero_add]) rest
    rw [hcmd, Nat.zero_add] at hsub
    exact hsub (terminator_subset n' hrest (mem_terminator.mpr ⟨by decide, rfl⟩))
  | @reference cmd name rest hcmd =>
    obtain ⟨n', hsub⟩ := stores_partTokens 0 n (by rw [hcmd, Nat.zero_add])
      (.dollar :: .word name :: rest)
    rw [hcmd, Nat.zero_add] at hsub
    refine hsub ?_
    rw [argvStores, if_pos (show Calls.willing.var n' = true from rfl)]
    exact List.mem_cons_self
  | @later cmd rest sep hcmd h ih =>
    obtain ⟨n', hsub⟩ := stores_partTokens 0 n (by rw [Nat.zero_add]; exact hcmd.le)
      (sep.token :: rest)
    exact hsub (stores_next n' sep rest (ih (n' + 1)))

/-- **When `argv` does not overflow.** Whatever the calls give, `parsecmd` and `runcmd` store to
entries of the array only, and `parsecmd` refuses the commands for which there is no room, if and
only if no command of the line has 128 arguments and ends there or goes on with a reference. -/
theorem argv_inBounds_iff (line : List Token) :
    (∀ w, (∀ i ∈ argvStores w 0 0 line, i < maxArgs) ∧
      ∀ fds, ∀ p ∈ parsecmd w 0 fds [] line, p.argv.length < maxArgs) ↔ ¬Overflowing line := by
  constructor
  · intro h hover
    exact absurd ((h .willing).1 _ (maxArgs_mem_stores hover 0)) (lt_irrefl _)
  · intro hover w
    have hstores : ∀ i ∈ argvStores w 0 0 line, i < maxArgs := by
      intro i hi
      by_contra hge
      exact hover (@overflowing_of_store w 0 0 i [] line rfl (Nat.zero_le _) hi (Nat.not_lt.mp hge))
    refine ⟨hstores, fun fds p hp => ?_⟩
    by_cases hnil : p.argv = []
    · rw [hnil]
      decide
    · exact hstores _ ((stores_of_parsecmd hp).2 hnil)

/-- A line of `n` words `a`. -/
def wordsLine (n : ℕ) : Text := (List.replicate n [0x20, 0x61]).flatten

lemma tokens_wordsLine (n : ℕ) : tokens (wordsLine n) = List.replicate n (.word [0x61]) := by
  induction n with
  | zero => exact tokens_of_none rfl
  | succ n ih =>
    have hsplit : splitToken (wordsLine (n + 1)) = some (.word [0x61], wordsLine n) := by
      cases n <;> rfl
    rw [tokens_of_some hsplit, ih, List.replicate_succ]

lemma length_wordsLine (n : ℕ) : (wordsLine n).length = n * 2 := by
  simp [wordsLine]

lemma zero_notMem_wordsLine (n : ℕ) : 0 ∉ wordsLine n := by
  intro h
  obtain ⟨l, hl, h0⟩ := List.mem_flatten.mp h
  rw [List.eq_of_mem_replicate hl] at h0
  exact absurd h0 (by decide)

lemma overflowing_wordsLine : Overflowing (tokens (wordsLine maxArgs)) := by
  obtain ⟨cmd, hcmd⟩ : ∃ cmd, List.replicate maxArgs (Part.word [0x61]) = cmd := ⟨_, rfl⟩
  have htokens : partTokens cmd ++ [] = List.replicate maxArgs (.word [0x61]) := by
    rw [List.append_nil, partTokens, ← hcmd, List.flatMap_replicate, Part.tokens,
      List.flatten_replicate_singleton]
  have hcount : argCount cmd = maxArgs := by
    rw [argCount, ← hcmd, List.filter_replicate_of_pos rfl, List.length_replicate]
  rw [tokens_wordsLine, ← htokens]
  exact .ends hcount (Or.inl rfl)

/-- In a line of 128 words, of 256 characters, the null pointer is stored outside of the array. -/
theorem wordsLine_outOfBounds : (wordsLine maxArgs).length < 1024 ∧ 0 ∉ wordsLine maxArgs ∧
    maxArgs ∈ argvStores .willing 0 0 (tokens (wordsLine maxArgs)) := by
  refine ⟨?_, zero_notMem_wordsLine _, maxArgs_mem_stores overflowing_wordsLine 0⟩
  rw [length_wordsLine]
  decide

end Stores

section References

variable {w : Calls} {n : ℕ} {fds : FdTable} {argv : List Arg} {cmd : List Part}
  {srcs srcs' : List Source} {line rest : List Token} {dead : Text}

/-- **The arguments of `parsecmd`** are those that the line says. -/
theorem argv_parsecmd (hargv : argv = srcs.map Source.arg) :
    (parsecmd w n fds argv line).map Parsed.argv =
      (parseSources w n srcs line).map fun srcs => srcs.map Source.arg := by
  fun_induction parsecmd w n fds argv line generalizing srcs with
  | case1 n fds argv => simp [parseSources, hargv]
  | case2 n fds argv t rest hvar ih =>
    rw [parseSources, if_pos hvar]
    exact ih (by rw [hargv, List.map_append]; rfl)
  | case3 n fds argv t rest hvar =>
    rw [parseSources, if_neg hvar]
    rfl
  | case4 n fds argv t rest hfull =>
    rw [hargv, List.length_map] at hfull
    rw [parseSources, if_pos hfull]
    rfl
  | case5 n fds argv t rest hfull ih =>
    rw [hargv, List.length_map] at hfull
    rw [parseSources, if_neg hfull]
    exact ih (by rw [hargv, List.map_append]; rfl)
  | case6 n fds argv t rest ih => exact ih hargv
  | case7 n fds argv t rest ih => exact ih hargv
  | case8 =>
    rename_i n fds₀ argv rest p fds hpipe left hfork ih
    rw [parseSources, if_pos hfork, List.map_append, List.map_append, @ih [] rfl]
    simp [left, hargv]
  | case9 =>
    rename_i n fds₀ argv rest p fds hpipe left hfork
    rw [parseSources, if_neg hfork]
    simp [left, hargv]
  | case10 n fds argv rest hfork ih =>
    rw [parseSources, if_pos hfork, List.map_cons, List.map_cons, @ih [] rfl, hargv]
  | case11 n fds argv rest hfork =>
    rw [parseSources, if_neg hfork]
    simp [hargv]
  | case12 n fds argv rest hfork ih =>
    rw [parseSources, if_pos hfork, List.map_cons, List.map_cons, @ih [] rfl, hargv]
  | case13 n fds argv rest hfork ih =>
    rw [parseSources, if_neg hfork]
    exact @ih [] rfl
  | case14 n fds argv rest ih => exact ih hargv
  | case15 n fds argv rest ih => exact ih hargv
  | case16 =>
    rw [parseSources]
    · rfl
    all_goals assumption

/-- What `spawn` finds in `argv`. -/
lemma run_strings {p : Parsed} (dead : Text) (hp : p.argv = srcs.map Source.arg) :
    p.run.bind (Run.strings dead) =
      if Spawns srcs then some (srcs.map fun src => src.arg.read dead) else none := by
  have hnil : p.argv = [] ↔ srcs = [] := by rw [hp, List.map_eq_nil_iff]
  have hlen : p.argv.length = srcs.length := by rw [hp, List.length_map]
  unfold Parsed.run
  rw [hlen]
  by_cases h : srcs = []
  · rw [if_pos (hnil.mpr h), if_neg fun hr : Spawns srcs => hr.1 h]
    rfl
  · rw [if_neg (mt hnil.mp h)]
    by_cases hfull : srcs.length ≥ maxArgs
    · rw [if_pos hfull, if_neg fun hr : Spawns srcs => Nat.not_lt.mpr hfull hr.2]
      rfl
    · rw [if_neg hfull, if_pos (show Spawns srcs from ⟨h, Nat.lt_of_not_le hfull⟩), hp]
      simp [Run.strings, Function.comp_def]

/-- The strings that the commands are spawned with, by what the line says. -/
lemma spawned_eq (w : Calls) (fds : FdTable) (dead : Text) (line : List Token) :
    spawned w fds dead line = ((parseSources w 0 [] line).filter fun srcs => Spawns srcs).map
      fun srcs => srcs.map fun src => src.arg.read dead := by
  have hargv := @argv_parsecmd w 0 fds [] [] line rfl
  unfold spawned runcmd
  rw [List.filterMap_filterMap]
  generalize parsecmd w 0 fds [] line = ps at hargv
  generalize parseSources w 0 [] line = l at hargv ⊢
  induction ps generalizing l with
  | nil =>
    obtain rfl : l = [] := by simpa using hargv.symm
    rfl
  | cons p ps ih =>
    cases l with
    | nil => cases hargv
    | cons srcs l =>
      rw [List.map_cons, List.map_cons, List.cons.injEq] at hargv
      have hp := run_strings dead hargv.1
      rw [List.filter_cons, List.filterMap_cons, hp]
      by_cases hruns : Spawns srcs
      · rw [if_pos hruns, if_pos (decide_eq_true hruns), List.map_cons, ih l hargv.2]
      · rw [if_neg hruns, if_neg (by simpa using hruns), ih l hargv.2]

/-! ## References -/

/-- The argument that a part is, by what the line says. -/
def Part.source? : Part → Option Source
  | .word t => some (.word t)
  | .reference name => some (.value name)
  | _ => none

/-- The arguments of a command, by what the line says. -/
def sources (cmd : List Part) : List Source := cmd.filterMap Part.source?

lemma length_sources (cmd : List Part) : (sources cmd).length = argCount cmd := by
  induction cmd with
  | nil => rfl
  | cons p cmd ih =>
    rw [argCount_cons, sources, List.filterMap_cons, ← ih]
    cases p <;> simp [Part.source?, Part.isArg, sources, Nat.add_comm]

lemma sources_snoc (cmd : List Part) (p : Part) :
    sources (cmd ++ [p]) = sources cmd ++ p.source?.toList := by
  rw [sources, List.filterMap_append]
  cases p <;> rfl

lemma value_mem_sources {name : Text} :
    Source.value name ∈ sources cmd ↔ Part.reference name ∈ cmd := by
  unfold sources
  rw [List.mem_filterMap]
  constructor
  · rintro ⟨p, hp, hs⟩
    cases p with
    | reference t =>
      obtain rfl : t = name := by simpa [Part.source?] using hs
      exact hp
    | _ => simp [Part.source?] at hs
  · exact fun h => ⟨_, h, rfl⟩

lemma wordsFit_snoc (k : ℕ) (cmd : List Part) (p : Part) :
    WordsFit k (cmd ++ [p]) ↔
      WordsFit k cmd ∧ ∀ t, p = .word t → k + argCount cmd < maxArgs := by
  induction cmd generalizing k with
  | nil => cases p <;> simp [WordsFit, argCount]
  | cons q cmd ih =>
    rw [List.cons_append, argCount_cons]
    cases q <;> simp [WordsFit, ih, Part.isArg, and_assoc, Nat.add_assoc]

/-- With at most 128 words the array is large enough. -/
lemma wordsFit_of_argCount {k : ℕ} (h : k + argCount cmd ≤ maxArgs) : WordsFit k cmd := by
  induction cmd generalizing k with
  | nil => trivial
  | cons p cmd ih =>
    rw [argCount_cons] at h
    cases p with
    | word t =>
      change k + (1 + argCount cmd) ≤ maxArgs at h
      exact ⟨by omega, ih (by omega)⟩
    | reference name =>
      change k + (1 + argCount cmd) ≤ maxArgs at h
      exact ih (by omega)
    | _ =>
      change k + (0 + argCount cmd) ≤ maxArgs at h
      exact ih (by omega)

/-- A command with a reference runs, or a later one. -/
lemma spawnsReference_sep {name : Text} (sep : Separator) (hfit : WordsFit 0 cmd)
    (hruns : Spawns srcs) (hname : Source.value name ∈ srcs)
    (h : srcs = sources cmd ∨ SpawnsReference rest) :
    SpawnsReference (partTokens cmd ++ sep.token :: rest) := by
  rcases h with rfl | h
  · exact .here (value_mem_sources.mp hname) (length_sources cmd ▸ hruns.2)
      (Or.inr ⟨sep, rest, rfl⟩)
  · exact .later sep hfit h

/-- A reference in what `parsecmd` returns is in a command that runs. -/
lemma spawnsReference_of_mem {name : Text} (hsrcs : sources cmd = srcs') (hfit : WordsFit 0 cmd)
    (h : srcs ∈ parseSources w n srcs' line) (hruns : Spawns srcs)
    (hname : Source.value name ∈ srcs) : SpawnsReference (partTokens cmd ++ line) := by
  fun_induction parseSources w n srcs' line generalizing cmd with
  | case1 n srcs' =>
    obtain rfl := (List.mem_singleton.mp h).trans hsrcs.symm
    exact .here (value_mem_sources.mp hname) (length_sources cmd ▸ hruns.2) (Or.inl rfl)
  | case2 n srcs' t rest _ ih =>
    rw [show Token.dollar :: .word t :: rest = (Part.reference t).tokens ++ rest from rfl,
      ← partTokens_snoc]
    exact ih (by rw [sources_snoc, hsrcs]; rfl) ((wordsFit_snoc _ _ _).mpr ⟨hfit, nofun⟩) h
  | case3 => cases h
  | case4 => cases h
  | case5 n srcs' t rest hlt ih =>
    rw [show Token.word t :: rest = (Part.word t).tokens ++ rest from rfl, ← partTokens_snoc]
    refine ih (by rw [sources_snoc, hsrcs]; rfl) ((wordsFit_snoc _ _ _).mpr ⟨hfit, ?_⟩) h
    intro t' _
    rw [Nat.zero_add, ← length_sources, hsrcs]
    exact Nat.lt_of_not_le hlt
  | case6 n srcs' t rest ih =>
    rw [show Token.less :: .word t :: rest = (Part.input t).tokens ++ rest from rfl,
      ← partTokens_snoc]
    exact ih (by rw [sources_snoc, hsrcs]; exact List.append_nil _)
      ((wordsFit_snoc _ _ _).mpr ⟨hfit, nofun⟩) h
  | case7 n srcs' t rest ih =>
    rw [show Token.greater :: .word t :: rest = (Part.output t).tokens ++ rest from rfl,
      ← partTokens_snoc]
    exact ih (by rw [sources_snoc, hsrcs]; exact List.append_nil _)
      ((wordsFit_snoc _ _ _).mpr ⟨hfit, nofun⟩) h
  | case8 n srcs' rest _ ih =>
    refine spawnsReference_sep .bar hfit hruns hname ((List.mem_append.mp h).symm.imp (fun h => ?_)
      fun h => @ih [] rfl trivial h)
    exact (List.mem_singleton.mp h).trans hsrcs.symm
  | case9 n srcs' rest =>
    exact spawnsReference_sep .bar hfit hruns hname
      (Or.inl ((List.mem_singleton.mp h).trans hsrcs.symm))
  | case10 n srcs' rest _ ih =>
    exact spawnsReference_sep .semi hfit hruns hname ((List.mem_cons.mp h).imp
      (fun h => h.trans hsrcs.symm) fun h => @ih [] rfl trivial h)
  | case11 n srcs' rest =>
    exact spawnsReference_sep .semi hfit hruns hname
      (Or.inl ((List.mem_singleton.mp h).trans hsrcs.symm))
  | case12 n srcs' rest _ ih =>
    exact spawnsReference_sep .amp hfit hruns hname ((List.mem_cons.mp h).imp
      (fun h => h.trans hsrcs.symm) fun h => @ih [] rfl trivial h)
  | case13 n srcs' rest _ ih =>
    exact .later .amp hfit (@ih [] rfl trivial h)
  | case14 n srcs' rest ih =>
    rw [show Token.lparen :: rest = (Part.paren true).tokens ++ rest from rfl, ← partTokens_snoc]
    exact ih (by rw [sources_snoc, hsrcs]; exact List.append_nil _)
      ((wordsFit_snoc _ _ _).mpr ⟨hfit, nofun⟩) h
  | case15 n srcs' rest ih =>
    rw [show Token.rparen :: rest = (Part.paren false).tokens ++ rest from rfl, ← partTokens_snoc]
    exact ih (by rw [sources_snoc, hsrcs]; exact List.append_nil _)
      ((wordsFit_snoc _ _ _).mpr ⟨hfit, nofun⟩) h
  | case16 => cases h

/-- A part of a command is one source more, or none. -/
lemma parseSources_part (p : Part) (n : ℕ) (srcs : List Source)
    (hfit : ∀ t, p = .word t → srcs.length < maxArgs) (rest : List Token) :
    ∃ n', parseSources .willing n srcs (p.tokens ++ rest) =
      parseSources .willing n' (srcs ++ p.source?.toList) rest := by
  cases p with
  | word t =>
    refine ⟨n, ?_⟩
    change parseSources .willing n srcs (.word t :: rest) = _
    rw [parseSources, if_neg (Nat.not_le.mpr (hfit t rfl))]
    rfl
  | reference name =>
    refine ⟨n + 1, ?_⟩
    change parseSources .willing n srcs (.dollar :: .word name :: rest) = _
    rw [parseSources, if_pos (show Calls.willing.var n = true from rfl)]
    rfl
  | input t =>
    refine ⟨n + 1, ?_⟩
    rw [show (Part.input t).source?.toList = [] from rfl, List.append_nil]
    rfl
  | output t =>
    refine ⟨n + 1, ?_⟩
    rw [show (Part.output t).source?.toList = [] from rfl, List.append_nil]
    rfl
  | paren left =>
    refine ⟨n, ?_⟩
    rw [show (Part.paren left).source?.toList = [] from rfl, List.append_nil]
    cases left <;> rfl

/-- The arguments of a command that is not refused. -/
lemma parseSources_partTokens (n : ℕ) (srcs : List Source) (hfit : WordsFit srcs.length cmd)
    (rest : List Token) : ∃ n', parseSources .willing n srcs (partTokens cmd ++ rest) =
      parseSources .willing n' (srcs ++ sources cmd) rest := by
  induction cmd generalizing n srcs with
  | nil => exact ⟨n, by simp [partTokens, sources]⟩
  | cons p cmd ih =>
    have hp : ∀ t, p = .word t → srcs.length < maxArgs := by
      rintro t rfl
      exact hfit.1
    obtain ⟨n', hpart⟩ := parseSources_part p n srcs hp (partTokens cmd ++ rest)
    have hcmd : WordsFit (srcs ++ p.source?.toList).length cmd := by
      rw [List.length_append]
      cases p with
      | word t => exact hfit.2
      | _ => exact hfit
    obtain ⟨n'', hrest⟩ := ih n' _ hcmd
    refine ⟨n'', ?_⟩
    rw [show partTokens (p :: cmd) ++ rest = p.tokens ++ (partTokens cmd ++ rest) by
      simp [partTokens], hpart, hrest, List.append_assoc]
    cases p <;> rfl

lemma mem_parseSources_of_ends (n : ℕ) (srcs : List Source) (hrest : CommandEnds rest) :
    srcs ∈ parseSources .willing n srcs rest := by
  rcases hrest with rfl | ⟨sep, rest, rfl⟩
  · exact List.mem_singleton_self _
  · cases sep with
    | bar => exact List.mem_append_right _ (List.mem_singleton_self _)
    | semi => exact List.mem_cons_self
    | amp => exact List.mem_cons_self

lemma parseSources_next (n : ℕ) (srcs : List Source) (sep : Separator) (rest : List Token) :
    parseSources .willing (n + 1) [] rest ⊆
      parseSources .willing n srcs (sep.token :: rest) := by
  cases sep with
  | bar => exact List.subset_append_left _ _
  | semi => exact List.subset_cons_self _ _
  | amp => exact List.subset_cons_self _ _

/-- A command with a reference that runs is among those that are spawned. -/
lemma exists_of_spawnsReference (h : SpawnsReference line) (n : ℕ) :
    ∃ srcs ∈ parseSources .willing n [] line, Spawns srcs ∧ ∃ name, .value name ∈ srcs := by
  induction h generalizing n with
  | @here cmd rest name hname hcmd hrest =>
    have hmem : Source.value name ∈ sources cmd := value_mem_sources.mpr hname
    have hfit : WordsFit 0 cmd := wordsFit_of_argCount (by omega)
    obtain ⟨n', hparse⟩ := parseSources_partTokens n [] hfit rest
    refine ⟨sources cmd, ?_, ⟨List.ne_nil_of_mem hmem, by rwa [length_sources]⟩, name, hmem⟩
    rw [hparse]
    exact mem_parseSources_of_ends n' _ hrest
  | @later cmd rest sep hcmd h ih =>
    obtain ⟨n', hparse⟩ := parseSources_partTokens n [] hcmd (sep.token :: rest)
    obtain ⟨srcs, hsrcs, hruns⟩ := ih (n' + 1)
    refine ⟨srcs, ?_, hruns⟩
    rw [hparse]
    exact parseSources_next n' _ sep rest hsrcs

/-- **When references expand in place.** Where all variables are defined, every command is spawned
with the words of the line and the values of the variables, whatever they are and whatever is left
on the stack, if and only if no command with a reference runs. -/
theorem references_expand_iff (line : List Token) :
    (∀ w, (∀ n, w.var n = true) → ∀ fds value dead,
      spawned w fds dead line = intended w value line) ↔ ¬SpawnsReference line := by
  constructor
  · intro h hspawns
    obtain ⟨srcs, hsrcs, hruns, name, hname⟩ := exists_of_spawnsReference hspawns 0
    have heq := h .willing (fun _ => rfl) (fun _ => none) (fun _ => []) [0x61]
    rw [spawned_eq, intended, List.map_inj_left] at heq
    have hargs := heq srcs (List.mem_filter.mpr ⟨hsrcs, decide_eq_true hruns⟩)
    rw [List.map_inj_left] at hargs
    exact absurd (hargs _ hname) (by simp [Source.arg, Arg.read, Source.intended])
  · intro hspawns w _ fds value dead
    rw [spawned_eq, intended]
    refine List.map_congr_left fun srcs hsrcs => List.map_congr_left fun src hsrc => ?_
    obtain ⟨hmem, hruns⟩ := List.mem_filter.mp hsrcs
    cases src with
    | word t => rfl
    | value name =>
      exact absurd (@spawnsReference_of_mem w 0 [] srcs [] line name rfl trivial hmem
        (of_decide_eq_true hruns) hsrc) hspawns

/-- The line `e $a $b`. -/
def twoReferences : Text := [0x65, 0x20, 0x24, 0x61, 0x20, 0x24, 0x62]

/-- The values `x` of `a` and `y` of `b`. -/
def twoValues (name : Text) : Text := if name = [0x61] then [0x78] else [0x79]

lemma tokens_twoReferences : tokens twoReferences =
    [.word [0x65], .dollar, .word [0x61], .dollar, .word [0x62]] := by
  rw [tokens_of_some (show splitToken twoReferences = some (.word [0x65], _) from rfl),
    tokens_of_some (show splitToken _ = some (.dollar, [0x61, 0x20, 0x24, 0x62]) from rfl),
    tokens_of_some (show splitToken _ = some (.word [0x61], [0x20, 0x24, 0x62]) from rfl),
    tokens_of_some (show splitToken _ = some (.dollar, [0x62]) from rfl),
    tokens_of_some (show splitToken _ = some (.word [0x62], []) from rfl),
    tokens_of_none rfl]

/-- In a command with two references both get the same string, whatever is on the stack. -/
theorem twoReferences_not_expanded : ¬∃ dead,
    spawned .willing (fun _ => none) dead (tokens twoReferences) =
      intended .willing twoValues (tokens twoReferences) := by
  rintro ⟨dead, h⟩
  rw [tokens_twoReferences, spawned_eq] at h
  have hdead : [[[0x65], dead, dead]] = [[[0x65], [0x78], [0x79]]] := h
  simp only [List.cons.injEq, and_true, true_and] at hdead
  rw [hdead.1] at hdead
  exact absurd hdead.2 (by decide)

end References

end MosVolca
