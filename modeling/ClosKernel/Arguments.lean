import ClosKernel.Files

/-!
# Arguments of a program

A command line is cut into a name and arguments by `parser`; the arguments wait in the PCB of the new process until it
calls `sys_getargs`, which copies them without their terminator into a buffer that it has cleared up to its first NUL.

* `commandBuffers_args` — what `sys_execute` keeps of the command line;
* `sysGetargs_eq` — what `sys_getargs` leaves in the buffer;
* `arguments_arrive_iff` — **which buffers receive the arguments as a string**.
-/

namespace ClosKernel

open PartialRun

/-- `sys_getargs`; a null pointer is `none`. -/
def sysGetargs (buf : Option Mem) (nbytes : ℤ) (k : Kernel) : Option (ℤ × Option Mem) :=
  match buf with
  | none => some (-1, none)
  | some buf =>
    (strlen buf).bind fun bufSize =>
      let buf : Mem := fun i => if (i : ℤ) < toInt32 bufSize then 0 else buf i
      (strlen k.cur.arguments).map fun argLength =>
        if toUInt32 nbytes < argLength then (-1, some buf)
        else if argLength = 0 then (-1, some buf)
        else (0, some (strncpy buf k.cur.arguments argLength))

/-! ### The command line -/

/-- A byte of a program name. -/
def NameByte (b : UInt8) : Prop := b ≠ 0x20 ∧ b ≠ 0x0A ∧ b ≠ 0

/-- A byte of an argument string. -/
def ArgByte (b : UInt8) : Prop := b ≠ 0x0A ∧ b ≠ 0

/-- The first loop of `parser` stops at the space behind the name. -/
theorem parserCmd_rest {name : List UInt8} (hname : ∀ b ∈ name, NameByte b) (args : List UInt8) (i : ℕ) (cmd : Mem) :
    (parserCmd (name ++ 0x20 :: args) i cmd).1 = 0x20 :: args := by
  induction name generalizing i cmd with
  | nil => rfl
  | cons b name ih =>
    rw [List.cons_append, parserCmd, if_pos (show b ≠ 0x20 ∧ b ≠ 0x0A ∧ b ≠ 0 from hname b List.mem_cons_self)]
    exact ih (fun c hc => hname c (List.mem_cons_of_mem b hc)) (i + 1) _

/-- The second loop of `parser`, with room for all of the arguments. -/
theorem parserArgs_apply {args : List UInt8} (hargs : ∀ b ∈ args, ArgByte b) {t : ℕ} (ht : t + args.length < argSize)
    (dest : Mem) (hdest : ∀ j, dest (t + j) = 0) (j : ℕ) :
    parserArgs args t dest j = if j < t then dest j else args.getD (j - t) 0 := by
  induction args generalizing t dest j with
  | nil =>
    rw [parserArgs]
    rcases Nat.lt_or_ge j t with hlt | hge
    · rw [if_pos hlt]
    · rw [if_neg (by omega), show j = t + (j - t) by omega, hdest]
      rfl
  | cons b args ih =>
    rw [List.length_cons] at ht
    have hrest : ∀ i, Function.update dest t b (t + 1 + i) = 0 := by
      intro i
      rw [Function.update_of_ne (by omega), Nat.add_assoc, hdest]
    -- both the cut and the next round leave the byte where it is
    have hsplit : ∀ m : Mem, (∀ i, m i = if i < t + 1 then Function.update dest t b i
        else args.getD (i - (t + 1)) 0) → m j = if j < t then dest j else (b :: args).getD (j - t) 0 := by
      intro m hm
      rw [hm]
      rcases Nat.lt_trichotomy j t with hlt | rfl | hgt
      · rw [if_pos (by omega), if_pos hlt, Function.update_of_ne (by omega)]
      · rw [if_pos (by omega), if_neg (by omega), Function.update_self, Nat.sub_self, List.getD_cons_zero]
      · rw [if_neg (by omega), if_neg (by omega), show j - t = j - (t + 1) + 1 by omega, List.getD_cons_succ]
    rw [parserArgs, if_pos (show b ≠ 0x0A ∧ b ≠ 0 from hargs b List.mem_cons_self)]
    split
    · rename_i hcut
      obtain rfl : args = [] := List.eq_nil_of_length_eq_zero (by unfold argSize at *; omega)
      refine hsplit _ fun i => ?_
      rcases Nat.lt_trichotomy i (t + 1) with hlt | rfl | hgt
      · rw [Function.update_of_ne (by omega), if_pos hlt]
      · rw [Function.update_self, if_neg (by omega)]
        rfl
      · rw [Function.update_of_ne (by omega), if_neg (by omega), show i = t + 1 + (i - (t + 1)) by omega, hrest]
        rfl
    · exact hsplit _ (ih (fun c hc => hargs c (List.mem_cons_of_mem b hc)) (by omega) _ hrest)

/-- **What `sys_execute` keeps** of a command line with a name, a space and up to 31 bytes of arguments. -/
theorem commandBuffers_args {name args : List UInt8} (hname : ∀ b ∈ name, NameByte b)
    (hargs : ∀ b ∈ args, ArgByte b) (hlen : args.length < 32) (junk : Mem) :
    (commandBuffers (name ++ 0x20 :: args) junk).2 = literal args := by
  have hzero : ∀ j, zeroed argSize (fun _ => 0) (0 + j) = 0 := by
    intro j
    rw [zeroed, ite_self]
  funext j
  show parserArgs (if (parserCmd (name ++ 0x20 :: args) 0 (zeroed cmdSize junk)).1.head? = some 0x20 then
    (parserCmd (name ++ 0x20 :: args) 0 (zeroed cmdSize junk)).1.tail
    else (parserCmd (name ++ 0x20 :: args) 0 (zeroed cmdSize junk)).1) 0 (zeroed argSize fun _ => 0) j = _
  rw [parserCmd_rest hname, List.head?_cons, if_pos rfl, List.tail_cons,
    parserArgs_apply hargs (by unfold argSize; omega) _ hzero, if_neg (Nat.not_lt_zero j), literal, Nat.sub_zero]

/-! ### `sys_getargs` -/

section Getargs

variable {k : Kernel} {args : List UInt8} {buf : Mem} {nbytes : ℤ}

theorem Spells.strlen {s : Mem} {text : List UInt8} (h : Spells s text) (hlen : text.length < 2 ^ 32) :
    ClosKernel.strlen s = some text.length := by
  refine (strlen_eq_some_iff s _).mpr ⟨hlen, ?_, fun j hj => ?_⟩
  · rw [h.bytes _ le_rfl, List.getD_eq_getElem?_getD, List.getElem?_eq_none le_rfl, Option.getD_none]
  · have hget : text.getD j 0 = text[j] := by simp [hj]
    rw [h.bytes j (Nat.le_of_lt hj), hget]
    exact fun hzero => h.nul_free (hzero ▸ List.getElem_mem hj)

/-- The buffer after a successful call: the arguments, and behind them zeros up to where its first NUL was. -/
theorem sysGetargs_eq (hspells : Spells k.cur.arguments args) (hpos : 0 < args.length) (hlen : args.length < 2 ^ 31)
    (hbytes : (args.length : ℤ) < nbytes) (hmax : nbytes < 2 ^ 31) :
    sysGetargs (some buf) nbytes k = (strlen buf).map fun bufSize => (0, some fun i =>
      if i < args.length then args.getD i 0 else if (i : ℤ) < toInt32 bufSize then 0 else buf i) := by
  have hword : toUInt32 nbytes = nbytes.toNat := (toUInt32_of_pos (by omega) hmax).1
  rw [sysGetargs]
  dsimp only
  cases ClosKernel.strlen buf with
  | none => rfl
  | some bufSize =>
    rw [Option.bind_some, hspells.strlen (by omega), Option.map_some, Option.map_some, if_neg (by omega),
      if_neg (by omega)]
    congr 3
    funext i
    rw [strncpy_apply, hspells.cStringFrom, List.take_length]

/-- A buffer that has a NUL behind the arguments once they are copied into it. -/
def EndsArguments (buf : Mem) (n : ℕ) : Prop :=
  buf n = 0 ∨ ∃ len, n < len ∧ len < 2 ^ 31 ∧ buf len = 0 ∧ ∀ i < len, buf i ≠ 0

theorem endsArguments_iff {n : ℕ} (hn : n < 2 ^ 31) : EndsArguments buf n ↔
    ∃ bufSize, strlen buf = some bufSize ∧ (if (n : ℤ) < toInt32 bufSize then 0 else buf n) = 0 := by
  constructor
  · rintro (hzero | ⟨len, hlt, hmax, hend, hbefore⟩)
    · -- the first NUL is not behind `n`
      have hex : ∃ i, buf i = 0 := ⟨n, hzero⟩
      have hfirst : Nat.find hex ≤ n := Nat.find_min' hex hzero
      refine ⟨Nat.find hex, (strlen_eq_some_iff _ _).mpr ⟨by omega, Nat.find_spec hex, ?_⟩, ?_⟩
      · exact fun j hj => Nat.find_min hex hj
      · rw [hzero, ite_self]
    · refine ⟨len, (strlen_eq_some_iff _ _).mpr ⟨by omega, hend, hbefore⟩, ?_⟩
      rw [toInt32, if_pos hmax, if_pos (by omega)]
  · rintro ⟨bufSize, hlen, hbyte⟩
    obtain ⟨hbound, hend, hbefore⟩ := (strlen_eq_some_iff _ _).mp hlen
    split at hbyte
    · rename_i hlt
      rw [toInt32] at hlt
      have hsmall : bufSize < 2 ^ 31 := by
        by_contra hlarge
        rw [if_neg hlarge] at hlt
        omega
      rw [if_pos hsmall] at hlt
      exact Or.inr ⟨bufSize, by omega, hsmall, hend, hbefore⟩
    · exact Or.inl hbyte

end Getargs

/-- The call returns 0 and leaves `args` as a string at the start of the buffer. -/
def Receives (k : Kernel) (buf : Mem) (nbytes : ℤ) (args : List UInt8) : Prop :=
  ∃ buf', sysGetargs (some buf) nbytes k = some (0, some buf') ∧
    (∀ i < args.length, buf' i = args.getD i 0) ∧ buf' args.length = 0

/-- **The trip of the arguments.**  A process that was started with arguments receives them, whenever it asks, if its
buffer has a NUL in the place of the terminator already or else no NUL up to there. -/
theorem arguments_arrive_iff {E : Platform} (hshell : ValidShell E.image) {before as : List Action}
    {k k' k'' : Kernel} (hreach : Reaches E before k) {st : Stack} {name args : List UInt8}
    (hname : ∀ b ∈ name, NameByte b) (hargs : ∀ b ∈ args, ArgByte b) (hpos : 1 ≤ args.length)
    (hlen : args.length ≤ 31) (hexec : sysExecute E st (name ++ 0x20 :: args) k = some (.launched, k')) {p : ℕ}
    (hp : k'.pcb = pcbAddr p) (hguard : Meets (step E) (fun a m => m.pcb = pcbAddr p → ¬a.MayHalt) as k')
    (hrun : runs (step E) as k' = some k'') (hp' : k''.pcb = pcbAddr p) (buf : Mem) {nbytes : ℤ}
    (hbytes : (args.length : ℤ) < nbytes) (hmax : nbytes < 2 ^ 31) :
    Receives k'' buf nbytes args ↔ EndsArguments buf args.length := by
  obtain ⟨σ, hσ⟩ := reaches_tracks hshell hreach
  -- the new process is live and has its arguments
  have hstep : step E (.execute st (name ++ 0x20 :: args)) k = some k' := by
    show (sysExecute E st (name ++ 0x20 :: args) k).map Prod.snd = some k'
    rw [hexec]
    rfl
  obtain ⟨σ', -, hσ'⟩ := (step_effect hshell hσ hstep).refines hσ
  obtain ⟨c, l, htop, hpcb⟩ := hσ'.current
  have hlive : k'.Live p := by
    have hc6 := hσ'.table.bound c (Kernel.Table.holds_of_top htop)
    obtain rfl : c = p := (pcbAddr_inj hc6).mp (hpcb.symm.trans hp)
    exact hσ'.live_current htop
  have hnew : k'.cur.arguments = literal args := by
    rcases hσ.execute_eq hexec with ⟨hfail, -⟩ | ⟨r, free, -, -, -, -, rfl⟩
    · cases hfail
    · rw [← commandBuffers_args hname hargs (by omega) st.cmd, Kernel.cur, Kernel.called, Kernel.enter]
      dsimp only
      rw [Function.update_self]
      rfl
  -- and still has them when it calls
  have hkept : k''.cur.arguments = literal args := by
    rw [← hnew, Kernel.cur, Kernel.cur, hp, hp']
    exact (keeps_program_of_runs hshell ⟨σ', hσ'⟩ hlive hguard hrun).arguments
  have hspells : Spells k''.cur.arguments args :=
    hkept ▸ .literal fun hzero => (hargs 0 hzero).2 rfl
  rw [Receives, sysGetargs_eq hspells (by omega) (by omega) hbytes hmax, endsArguments_iff (by omega)]
  constructor
  · rintro ⟨buf', hget, -, hend⟩
    obtain ⟨bufSize, hsize, heq⟩ := Option.map_eq_some_iff.mp hget
    simp only [Prod.mk.injEq, Option.some_inj, true_and] at heq
    subst heq
    dsimp only at hend
    rw [if_neg (Nat.lt_irrefl _)] at hend
    exact ⟨bufSize, hsize, hend⟩
  · rintro ⟨bufSize, hsize, hend⟩
    rw [hsize]
    refine ⟨_, rfl, fun i hi => if_pos hi, ?_⟩
    rw [if_neg (Nat.lt_irrefl _)]
    exact hend

/-- `ls a` is executed after boot: the buffer full of zeros receives the argument. -/
theorem arguments_arrive_ls : ∃ b k, boot twoProgramPlatform default powerOnKernel = some b ∧
    sysExecute twoProgramPlatform default ([0x6C, 0x73] ++ 0x20 :: [0x61]) b = some (.launched, k) ∧
    Receives k emptyString 1024 [0x61] := by
  have heval : ((boot twoProgramPlatform default powerOnKernel).any fun b =>
      (sysExecute twoProgramPlatform default ([0x6C, 0x73] ++ 0x20 :: [0x61]) b).any fun r =>
        decide (r.1 = .launched ∧ r.2.pcb = pcbAddr 1)) = true := by
    decide +kernel
  simp only [Option.any_eq_true, decide_eq_true_eq] at heval
  obtain ⟨b, hboot, ⟨o, k⟩, hexec, rfl, hpcb⟩ := heval
  refine ⟨b, k, hboot, hexec, ?_⟩
  have hreach : Reaches twoProgramPlatform [] b := reaches_of_runs hboot rfl
  refine (arguments_arrive_iff twoProgramPlatform_shell hreach ?_ ?_ (by decide) (by decide) hexec hpcb
    (show Meets _ _ [] k from trivial) rfl hpcb emptyString (by decide) (by decide)).mpr (Or.inl rfl)
  · rw [List.forall_mem_cons, List.forall_mem_singleton]
    exact ⟨⟨by decide, by decide, by decide⟩, by decide, by decide, by decide⟩
  · rw [List.forall_mem_singleton]
    exact ⟨by decide, by decide⟩

/-- A buffer that starts with a NUL and holds other bytes behind it: the argument gets no terminator. -/
def dirtyBuffer : Mem := fun i => if i = 0 then 0 else if i < 9 then 0x78 else 0

theorem arguments_unterminated : ∃ b k buf', boot twoProgramPlatform default powerOnKernel = some b ∧
    sysExecute twoProgramPlatform default ([0x6C, 0x73] ++ 0x20 :: [0x61]) b = some (.launched, k) ∧
    sysGetargs (some dirtyBuffer) 1024 k = some (0, some buf') ∧ buf' 1 = 0x78 ∧
    ¬Receives k dirtyBuffer 1024 [0x61] := by
  have heval : ((boot twoProgramPlatform default powerOnKernel).any fun b =>
      (sysExecute twoProgramPlatform default ([0x6C, 0x73] ++ 0x20 :: [0x61]) b).any fun r =>
        (sysGetargs (some dirtyBuffer) 1024 r.2).any fun g => g.2.any fun buf' =>
          decide (r.1 = .launched ∧ g.1 = 0 ∧ buf' 1 = 0x78)) = true := by
    decide +kernel
  simp only [Option.any_eq_true, decide_eq_true_eq] at heval
  obtain ⟨b, hboot, ⟨o, k⟩, hexec, ⟨g, _⟩, hget, buf', rfl, rfl, rfl, hbyte⟩ := heval
  refine ⟨b, k, buf', hboot, hexec, hget, hbyte, ?_⟩
  rintro ⟨buf'', hget', -, hend⟩
  obtain rfl : buf' = buf'' := by
    rw [show sysGetargs (some dirtyBuffer) 1024 k = _ from hget] at hget'
    simpa using hget'
  rw [List.length_singleton, hbyte] at hend
  exact absurd hend (by decide)

end ClosKernel
