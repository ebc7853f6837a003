import ClosKernel.CpuState
import Mathlib.Data.Fintype.Basic

/-!
# `sys_execute` under preemption

System calls enter through a trap gate, so a PIT tick may switch processes in the middle of `sys_execute`.
`advance` cuts the call where a tick matters: the choice of a pid, `setup_paging`, the copy of the image through
the directory that is loaded at that moment, and `enterProcess`.  `Preempt` runs any number of calls, each
taking a step only while its caller is the running process, with ticks in between.

* `finish_eq_sysExecute` — the steps of a call, not interrupted, are `sysExecute`;
* `serial`, `sysExecute_serial` — the abstract effect of calls made one after the other;
* `Serialised.tick`, `Serialised.advance` — what an interleaving keeps while two calls do not overlap between choice
  and publication and no tick takes the CPU from a call between `setup_paging` and its end;
* `preempted_execute_serial` — such interleavings have the outcome of a serial order;
* `preempted_execute_collides` — without either condition they do not.
-/

namespace ClosKernel

open PartialRun LinkedStack

/-! ### A call in steps -/

/-- A call of `sys_execute`: the process that makes it, its stack, and the command. -/
structure Call where
  caller : ℕ
  st : Stack
  command : List UInt8

/-- How far a call has come. -/
inductive Progress where
  | start
  | chosen (free : ℕ)
  | mapped (free : ℕ)
  | loaded (free : ℕ) (progImg : Mem)
  /-- The new process has been entered, on the page directory that was loaded at that moment. -/
  | entered (free cr3 : ℕ)
  | failed

namespace Progress

/-- A pid has been chosen and not yet published. -/
def inFlight : Progress → Bool
  | .chosen _ | .mapped _ | .loaded _ _ => true
  | .start | .entered _ _ | .failed => false

/-- The call relies on the directory that it loaded. -/
def exposed : Progress → Bool
  | .mapped _ | .loaded _ _ => true
  | .start | .chosen _ | .entered _ _ | .failed => false

def finished : Progress → Bool
  | .entered _ _ | .failed => true
  | .start | .chosen _ | .mapped _ | .loaded _ _ => false

/-- The pid that a finished call has given out. -/
def pid : Progress → Option ℕ
  | .entered free _ => some free
  | .start | .chosen _ | .mapped _ | .loaded _ _ | .failed => none

theorem pid_of_not_finished {p : Progress} (hp : p.finished = false) : p.pid = none := by
  cases p with
  | start | chosen | mapped | loaded | failed => rfl
  | entered => cases hp

def outcome : Progress → Option Outcome
  | .entered _ _ => some .launched
  | .failed => some (.ret (-1))
  | .start | .chosen _ | .mapped _ | .loaded _ _ => none

end Progress

/-- The next step of a call that is not finished. -/
def advance (E : Platform) (c : Call) : Progress → Kernel → Option (Progress × Kernel)
  | .start, k =>
    (checkExe E.image c.st (commandBuffers c.command c.st.cmd).1).map fun (ok, text) =>
      let k := k.printf text
      if ok = -1 then (.failed, k)
      else
        match freePid k.pidBitmap with
        | none => (.failed, k.printf cannotRunMore)
        | some free => (.chosen free, k)
  | .chosen free, k => some (.mapped free, setupPaging E free k)
  | .mapped free, k =>
    (loadProgram E c.st (commandBuffers c.command c.st.cmd).1 k).map fun
      | (none, k) => (.failed, k)
      | (some progImg, k) => (.loaded free progImg, k)
  | .loaded free progImg, k =>
    some (.entered free k.paging.cr3, enterProcess free progImg (commandBuffers c.command c.st.cmd).2 k)
  | .entered _ _, _ => none
  | .failed, _ => none

/-- Up to `n` steps in a row. -/
def Call.finish (E : Platform) (c : Call) : ℕ → Progress × Kernel → Option (Progress × Kernel)
  | 0, s => some s
  | n + 1, s => if s.1.finished then some s else (advance E c s.1 s.2).bind (c.finish E n)

theorem Call.finish_succ {E : Platform} (c : Call) (n : ℕ) {p : Progress} (k : Kernel)
    (hp : p.finished = false) :
    c.finish E (n + 1) (p, k) = (advance E c p k).bind (c.finish E n) :=
  if_neg (by rw [hp]; decide)

/-- **A call that is not interrupted** is the system call. -/
theorem finish_eq_sysExecute (E : Platform) (c : Call) (k : Kernel) :
    (c.finish E 4 (.start, k)).map (fun s => (s.1.outcome, s.2))
      = (sysExecute E c.st c.command k).map fun r => (some r.1, r.2) := by
  rw [sysExecute, sysExecuteWith, c.finish_succ 3 (p := .start) k rfl, advance]
  dsimp only
  cases checkExe E.image c.st (commandBuffers c.command c.st.cmd).1 with
  | none => rfl
  | some r =>
    obtain ⟨ok, text⟩ := r
    rw [Option.map_some, Option.bind_some, Option.bind_some]
    dsimp only
    by_cases hok : ok = -1
    · rw [if_pos hok, if_pos hok]
      rfl
    · rw [if_neg hok, if_neg hok]
      cases freePid (k.printf text).pidBitmap with
      | none => rfl
      | some free =>
        dsimp only
        rw [c.finish_succ 2 (p := .chosen free) _ rfl, advance, Option.bind_some,
          c.finish_succ 1 (p := .mapped free) _ rfl, advance, loadProgram]
        cases loadProgramWith apart E c.st (commandBuffers c.command c.st.cmd).1
          (setupPaging E free (k.printf text)) with
        | none => rfl
        | some r =>
          obtain ⟨_ | progImg, k⟩ := r
          · rfl
          · rfl

/-! ### Calls made one after the other -/

/-- A program image that fits behind its offset in the program page. -/
structure Program where
  bytes : Mem
  count : ℕ
  fits : imgOffset + count ≤ 0x400000

/-- What is loaded for an executable. -/
def programOf (E : Platform) (st : Stack) (r : ℕ) (h : Executable E.image st r) : Program where
  bytes := (readProgram E st r).2
  count := (readProgram E st r).1.toNat
  fits := by
    have hbounds : 0 ≤ (readProgram E st r).1 ∧ (readProgram E st r).1 ≤ progBytes ∧ _ :=
      Image.readData_zero_bounds h.1 (by decide) st.progImg
    simp only [imgOffset, progBytes] at hbounds ⊢
    omega

/-- The program that a call would load, if its command names one. -/
def Call.program (E : Platform) (c : Call) : Option Program :=
  match E.image.lookup (commandBuffers c.command c.st.cmd).1 with
  | some (some r) => if h : Executable E.image c.st r then some (programOf E c.st r h) else none
  | _ => none

theorem Call.program_of_found {E : Platform} {c : Call} {r : ℕ}
    (hr : E.image.lookup (commandBuffers c.command c.st.cmd).1 = some (some r))
    (hexe : Executable E.image c.st r) : c.program E = some (programOf E c.st r hexe) := by
  rw [Call.program, hr]
  exact dif_pos hexe

theorem Call.program_eq_none {E : Platform} {c : Call}
    (h : ∀ r, E.image.lookup (commandBuffers c.command c.st.cmd).1 = some (some r) →
      ¬Executable E.image c.st r) : c.program E = none := by
  rw [Call.program]
  split
  · rename_i r hr
    exact dif_neg (h r hr)
  · rfl

/-- What calls leave behind: the bitmap, the program pages, and the pid each call has given out. -/
structure Slots (ι : Type) where
  bitmap : BitVec 8
  phys : ℕ → UInt8
  pid : ι → Option ℕ

section Serial

variable {ι : Type} [DecidableEq ι]

/-- Where the image of a program goes. -/
def Program.place (P : Program) (p : ℕ) (phys : ℕ → UInt8) : ℕ → UInt8 :=
  stored (frameBase p + imgOffset) P.bytes P.count phys

/-- A call as a whole: the lowest free pid gets the image in its frame. -/
def Slots.execute (i : ι) (prog : Option Program) (S : Slots ι) : Slots ι :=
  match prog, freePid S.bitmap with
  | some P, some free => ⟨S.bitmap ||| pidBit free, P.place free S.phys, Function.update S.pid i (some free)⟩
  | _, _ => S

/-- The calls of a list, the last one first. -/
def serial (progs : ι → Option Program) (S : Slots ι) : List ι → Slots ι
  | [] => S
  | i :: earlier => (serial progs S earlier).execute i (progs i)

theorem Slots.execute_some (i : ι) (S : Slots ι) {P : Program} {free : ℕ}
    (hfree : freePid S.bitmap = some free) :
    S.execute i (some P)
      = ⟨S.bitmap ||| pidBit free, P.place free S.phys, Function.update S.pid i (some free)⟩ := by
  unfold Slots.execute
  rw [hfree]

theorem Slots.execute_pid_of_ne (S : Slots ι) (prog : Option Program) {i j : ι} (hj : j ≠ i) :
    (S.execute i prog).pid j = S.pid j := by
  unfold Slots.execute
  split
  · exact Function.update_of_ne hj _ _
  · rfl

theorem Slots.execute_of_none (i : ι) (S : Slots ι) {prog : Option Program}
    (h : prog = none ∨ freePid S.bitmap = none) : S.execute i prog = S := by
  unfold Slots.execute
  split
  · rename_i hfree
    rcases h with h | h
    · cases h
    · rw [hfree] at h
      cases h
  · rfl

/-- What holds of the slots after calls: pids are fresh and each belongs to one call, whose image is in its frame
and nowhere else. -/
structure Slots.Sound (progs : ι → Option Program) (S S₀ : Slots ι) : Prop where
  lt : ∀ i f, S.pid i = some f → f < 6
  taken : ∀ i f, S.pid i = some f → S.bitmap.getLsbD f = true
  apart : ∀ i j f, S.pid i = some f → S.pid j = some f → i = j
  image : ∀ i f, S.pid i = some f → ∃ P, progs i = some P ∧
    ∀ o < P.count, S.phys (frameBase f + imgOffset + o) = P.bytes o
  frame : ∀ a, (∀ i f P, S.pid i = some f → progs i = some P →
    ¬(frameBase f + imgOffset ≤ a ∧ a < frameBase f + imgOffset + P.count)) → S.phys a = S₀.phys a

/-- A further call keeps this. -/
theorem Slots.Sound.execute {progs : ι → Option Program} {S₀ S : Slots ι} {i : ι}
    (h : S.Sound progs S₀) (hi : S.pid i = none) : (S.execute i (progs i)).Sound progs S₀ := by
  cases hprog : progs i with
  | none => rw [S.execute_of_none i (Or.inl rfl)]; exact h
  | some P =>
    cases hfree : freePid S.bitmap with
    | none => rw [S.execute_of_none i (Or.inr hfree)]; exact h
    | some free =>
      rw [S.execute_some i hfree]
      obtain ⟨hlt, hclear, -⟩ := (freePid_eq_some_iff _ _).mp hfree
      -- the pid given out is none of the earlier ones
      have hne : ∀ j f, S.pid j = some f → f ≠ free := by
        rintro j f hj rfl
        rw [h.taken j f hj] at hclear
        exact absurd hclear (by decide)
      have hcases : ∀ j f, Function.update S.pid i (some free) j = some f →
          (j = i ∧ f = free) ∨ (j ≠ i ∧ S.pid j = some f) := by
        intro j f hj
        by_cases hji : j = i
        · rw [hji, Function.update_self, Option.some_inj] at hj
          exact Or.inl ⟨hji, hj.symm⟩
        · rw [Function.update_of_ne hji] at hj
          exact Or.inr ⟨hji, hj⟩
      refine ⟨?_, ?_, ?_, ?_, ?_⟩
      · intro j f hj
        rcases hcases j f hj with ⟨-, rfl⟩ | ⟨-, hj⟩
        · exact hlt
        · exact h.lt j f hj
      · intro j f hj
        show (S.bitmap ||| pidBit free).getLsbD f = true
        rw [getLsbD_or_pidBit _ hlt]
        rcases hcases j f hj with ⟨-, rfl⟩ | ⟨-, hj⟩
        · simp
        · simp [h.taken j f hj]
      · intro j l f hj hl
        rcases hcases j f hj with ⟨hji, hf⟩ | ⟨-, hj'⟩ <;> rcases hcases l f hl with ⟨hli, hf'⟩ | ⟨-, hl'⟩
        · rw [hji, hli]
        · exact absurd hf (hne l f hl')
        · exact absurd hf' (hne j f hj')
        · exact h.apart j l f hj' hl'
      · intro j f hj
        rcases hcases j f hj with ⟨rfl, rfl⟩ | ⟨-, hj⟩
        · refine ⟨P, hprog, fun o ho => ?_⟩
          show stored _ _ _ _ _ = _
          rw [stored, if_pos (by omega), Nat.add_sub_cancel_left]
        · obtain ⟨Q, hQ, himage⟩ := h.image j f hj
          refine ⟨Q, hQ, fun o ho => ?_⟩
          -- the frames of two pids are apart
          have hfits := P.fits
          have hfits' := Q.fits
          have hfne := hne j f hj
          show stored _ _ _ _ _ = _
          rw [stored, if_neg (by simp only [frameBase]; omega)]
          exact himage o ho
      · intro a ha
        have hout := ha i free P (Function.update_self ..) hprog
        show stored _ _ _ _ _ = _
        rw [stored, if_neg hout]
        refine h.frame a fun j f Q hj hQ => ha j f Q ?_ hQ
        have hji : j ≠ i := by
          rintro rfl
          rw [hi] at hj
          cases hj
        exact (Function.update_of_ne hji _ _).trans hj

/-- Only calls of the list have given out a pid. -/
theorem serial_pid_of_notMem {progs : ι → Option Program} {S : Slots ι} (hS : ∀ i, S.pid i = none)
    {i : ι} {order : List ι} (hi : i ∉ order) : (serial progs S order).pid i = none := by
  induction order with
  | nil => exact hS i
  | cons j earlier ih =>
    rw [List.mem_cons, not_or] at hi
    rw [serial, Slots.execute_pid_of_ne _ _ hi.1]
    exact ih hi.2

/-- **Serial calls** get different pids and put each image into its own frame. -/
theorem serial_sound (progs : ι → Option Program) {S : Slots ι} (hS : ∀ i, S.pid i = none)
    {order : List ι} (hnodup : order.Nodup) : (serial progs S order).Sound progs S := by
  induction order with
  | nil =>
    have hno : ∀ i f, S.pid i ≠ some f := fun i f h => by rw [hS i] at h; cases h
    exact ⟨fun i f h => absurd h (hno i f), fun i f h => absurd h (hno i f),
      fun i j f h => absurd h (hno i f), fun i f h => absurd h (hno i f), fun _ _ => rfl⟩
  | cons i earlier ih =>
    rw [List.nodup_cons] at hnodup
    exact (ih hnodup.2).execute (serial_pid_of_notMem hS hnodup.1)

/-- The copy of an image through the directory of its own process. -/
theorem copyOut_programOf {E : Platform} {st : Stack} {r free : ℕ} (hexe : Executable E.image st r)
    {P : Paging} (hok : P.Ok E.layout) (hfree : free < 6)
    (hset : P.pageDir free 32 = 0x800187 + free * 0x400000) (hcr3 : P.cr3 = E.layout.dirAdrs free)
    (phys : ℕ → UInt8) :
    copyOut E.layout P (imgOffset + entryPointStart) (readProgram E st r).2
      (readProgram E st r).1.toNat phys = (programOf E st r hexe).place free phys :=
  copyOut_program _ phys hok hfree hset hcr3 (programOf E st r hexe).fits

/-- **`sys_execute` as a whole** does to the bitmap and the program pages what `Slots.execute` does. -/
theorem sysExecute_serial {E : Platform} {c : Call} {k k' : Kernel} {σ : Shells} {o : Outcome}
    (htracks : k.Tracks σ) (hok : k.paging.Ok E.layout)
    (h : sysExecute E c.st c.command k = some (o, k')) (i : ι) (S : Slots ι)
    (hbits : S.bitmap = k.pidBitmap) (hphys : S.phys = k.phys) :
    (S.execute i (c.program E)).bitmap = k'.pidBitmap ∧ (S.execute i (c.program E)).phys = k'.phys := by
  rcases sysExecute_cases h with ⟨-, rfl, hnot⟩ | ⟨r, free, hr, hexe, hfree, -, -, rfl⟩
  · rw [S.execute_of_none i (hnot.imp Call.program_eq_none fun hfull => hbits ▸ hfull)]
    exact ⟨hbits, hphys⟩
  · have hlt := Kernel.Table.free_lt hfree
    rw [enterProcess_child free _ _ (k := k.loaded E c.st free r) htracks.whichTerm
      htracks.attemptExit (htracks.pcb_ne_free hfree), Call.program_of_found hr hexe,
      S.execute_some i (hbits ▸ hfree)]
    refine ⟨congrArg (· ||| pidBit free) hbits, ?_⟩
    show Program.place _ free S.phys = copyOut _ _ _ _ _ _
    rw [copyOut_programOf hexe (hok.setupPaging hlt) hlt
      (k.paging.pageDir_setupPaging E.layout hlt (Or.inl rfl)) rfl, hphys]

end Serial

/-! ### Interleaved calls -/

/-- A kernel in which several calls are under way. -/
structure Preempt (ι : Type) where
  kernel : Kernel
  progress : ι → Progress

inductive PreemptAction (ι : Type) where
  /-- A PIT interrupt. -/
  | tick
  /-- The call `i` takes its next step. -/
  | advance (i : ι)

section Interleaving

variable {ι : Type} [DecidableEq ι] {E : Platform} {calls : ι → Call}

/-- A call goes on only while its caller is the running process. -/
def Preempt.step (E : Platform) (calls : ι → Call) : PreemptAction ι → Preempt ι → Option (Preempt ι)
  | .tick, s => (ClosKernel.step E .tick s.kernel).map fun k => { s with kernel := k }
  | .advance i, s =>
    if s.kernel.pcb = pcbAddr (calls i).caller then
      (ClosKernel.advance E (calls i) (s.progress i) s.kernel).map fun r =>
        ⟨r.2, Function.update s.progress i r.1⟩
    else none

/-- No tick takes the CPU from a call that relies on its directory, and no call chooses a pid while another
call holds one that it has not published. -/
def Undisturbed (E : Platform) (calls : ι → Call) : PreemptAction ι → Preempt ι → Prop
  | .tick, s => ∀ k', ClosKernel.step E .tick s.kernel = some k' → ∀ i, (s.progress i).exposed = true →
      s.kernel.pcb = pcbAddr (calls i).caller → k'.pcb = s.kernel.pcb
  | .advance i, s => ∀ r, ClosKernel.advance E (calls i) (s.progress i) s.kernel = some r →
      (s.progress i).inFlight = false → r.1.inFlight = true → ∀ j, j ≠ i → (s.progress j).inFlight = false

instance [Fintype ι] : ∀ a s, Decidable (Undisturbed E calls a s)
  | .tick, s => inferInstanceAs (Decidable (∀ k', ClosKernel.step E .tick s.kernel = some k' → ∀ i,
      (s.progress i).exposed = true → s.kernel.pcb = pcbAddr (calls i).caller → k'.pcb = s.kernel.pcb))
  | .advance i, s => inferInstanceAs (Decidable (∀ r,
      ClosKernel.advance E (calls i) (s.progress i) s.kernel = some r → (s.progress i).inFlight = false →
        r.1.inFlight = true → ∀ j, j ≠ i → (s.progress j).inFlight = false))

/-- The call `i` holds the pid `f` for the program `P`, and no other call holds one. -/
structure Holding (E : Platform) (calls : ι → Call) (S : Slots ι) (s : Preempt ι) (i : ι) (f : ℕ)
    (P : Program) : Prop where
  alone : ∀ j, j ≠ i → (s.progress j).inFlight = false
  program : (calls i).program E = some P
  free : freePid S.bitmap = some f

/-- The directory of pid `f` is loaded, with its program page, while the caller of `i` is running. -/
structure OnDirectory (E : Platform) (calls : ι → Call) (s : Preempt ι) (i : ι) (f : ℕ) : Prop where
  caller : s.kernel.pcb = pcbAddr (calls i).caller
  cr3 : s.kernel.paging.cr3 = E.layout.dirAdrs f
  mapped : s.kernel.paging.pageDir f 32 = 0x800187 + f * 0x400000

/-- What is known of the call `i` at each stage, relative to the slots `S` of the finished calls. -/
def Phase (E : Platform) (calls : ι → Call) (S : Slots ι) (s : Preempt ι) (i : ι) : Progress → Prop
  | .chosen f => ∃ P, Holding E calls S s i f P ∧ s.kernel.phys = S.phys
  | .mapped f => ∃ P, Holding E calls S s i f P ∧ OnDirectory E calls s i f ∧ s.kernel.phys = S.phys
  | .loaded f progImg => ∃ P, progImg = P.bytes ∧ Holding E calls S s i f P ∧ OnDirectory E calls s i f ∧
      s.kernel.phys = P.place f S.phys
  | .start | .entered _ _ | .failed => True

/-- At most one call is in flight; the program pages are those of `S`, up to its image. -/
structure Flight (E : Platform) (calls : ι → Call) (S : Slots ι) (s : Preempt ι) : Prop where
  phase : ∀ i, Phase E calls S s i (s.progress i)
  idle : (∀ i, (s.progress i).inFlight = false) → s.kernel.phys = S.phys

/-- The kernel is where the finished calls, made in the order `order` (the last one first), would leave it. -/
structure Serialised (E : Platform) (calls : ι → Call) (S₀ : Slots ι) (s : Preempt ι) (order : List ι) :
    Prop where
  tracks : ∃ σ, s.kernel.Tracks σ
  ok : s.kernel.paging.Ok E.layout
  nodup : order.Nodup
  mem : ∀ i, i ∈ order ↔ (s.progress i).finished = true
  bitmap : s.kernel.pidBitmap = (serial (fun i => (calls i).program E) S₀ order).bitmap
  pid : ∀ i, (s.progress i).pid = (serial (fun i => (calls i).program E) S₀ order).pid i
  cr3 : ∀ i f c, s.progress i = .entered f c → c = E.layout.dirAdrs f
  flight : Flight E calls (serial (fun i => (calls i).program E) S₀ order) s

/-! ### What the steps keep -/

/-- A call that starts prints and fails, or chooses the lowest free pid for its program. -/
theorem advance_start_cases {c : Call} {k k' : Kernel} {p : Progress}
    (h : advance E c .start k = some (p, k')) :
    (p = .failed ∧ (∃ bytes, k' = k.printf bytes) ∧
      (c.program E = none ∨ freePid k.pidBitmap = none)) ∨
    ∃ f P, p = .chosen f ∧ k' = k ∧ c.program E = some P ∧ freePid k.pidBitmap = some f := by
  rw [advance] at h
  obtain ⟨⟨ok, text⟩, hcheck, hrest⟩ := Option.map_eq_some_iff.mp h
  dsimp only at hrest
  rcases checkExe_cases hcheck with ⟨rfl, hnot⟩ | ⟨rfl, rfl, r, hr, hexe⟩
  · rw [if_pos rfl, Prod.mk.injEq] at hrest
    exact Or.inl ⟨hrest.1.symm, ⟨text, hrest.2.symm⟩, Or.inl (Call.program_eq_none hnot)⟩
  · rw [if_neg (by decide), show (k.printf []).pidBitmap = k.pidBitmap from rfl] at hrest
    cases hfree : freePid k.pidBitmap with
    | none =>
      rw [hfree, Prod.mk.injEq] at hrest
      exact Or.inl ⟨hrest.1.symm, ⟨_, hrest.2.symm⟩, Or.inr rfl⟩
    | some f =>
      rw [hfree, Prod.mk.injEq] at hrest
      exact Or.inr ⟨f, _, hrest.1.symm, hrest.2.symm, Call.program_of_found hr hexe, rfl⟩

/-- The copy step of a call that has a program. -/
theorem advance_mapped_eq {c : Call} {k : Kernel} {f : ℕ} {P : Program} (hprog : c.program E = some P) :
    advance E c (.mapped f) k = some (.loaded f P.bytes, { k with
      phys := copyOut E.layout k.paging (imgOffset + entryPointStart) P.bytes P.count k.phys }) := by
  rw [Call.program] at hprog
  split at hprog
  · rename_i r hr
    by_cases hexe : Executable E.image c.st r
    · rw [dif_pos hexe, Option.some_inj] at hprog
      rw [advance, loadProgram_of_found hr hexe, ← hprog]
      rfl
    · rw [dif_neg hexe] at hprog
      cases hprog
  · cases hprog

/-- A tick leaves the bitmap and the program pages alone, and the loaded directory too unless it switches. -/
theorem tick_frame {k k' : Kernel} (hc : k.curProc < 6) (h : step E .tick k = some k') :
    k'.phys = k.phys ∧ k'.pidBitmap = k.pidBitmap ∧
      (k'.paging = k.paging ∨ k'.pcb ≠ k.pcb ∧ ∃ p, k'.paging = k.paging.updatePaging E.layout p) := by
  obtain ⟨isr, ⟨-, rfl⟩ | ⟨p, -, -, ⟨-, rfl⟩ | ⟨hp, rfl⟩⟩⟩ := tick_cases hc h
  · exact ⟨rfl, rfl, Or.inl rfl⟩
  · exact ⟨rfl, rfl, Or.inl rfl⟩
  · exact ⟨rfl, rfl, Or.inr ⟨fun he => hp he.symm, _, rfl⟩⟩

omit [DecidableEq ι] in
theorem Phase.of_not_inFlight {S : Slots ι} {s : Preempt ι} {i : ι} {p : Progress}
    (hp : p.inFlight = false) : Phase E calls S s i p := by
  cases p with
  | start | entered | failed => trivial
  | chosen | mapped | loaded => cases hp

namespace Flight

variable {S : Slots ι} {s s' : Preempt ι}

omit [DecidableEq ι] in
/-- What is not in flight may change, and the tables too as long as nobody relies on them. -/
theorem congr (h : Flight E calls S s)
    (hkeep : ∀ j, (s.progress j).inFlight = true → s'.progress j = s.progress j)
    (hrest : ∀ j, (s.progress j).inFlight = false → (s'.progress j).inFlight = false)
    (hphys : s'.kernel.phys = s.kernel.phys)
    (hexposed : ∀ j, (s.progress j).exposed = true → s.kernel.pcb = pcbAddr (calls j).caller →
      s'.kernel.pcb = s.kernel.pcb ∧ s'.kernel.paging = s.kernel.paging) : Flight E calls S s' := by
  have hold' : ∀ {i f P}, Holding E calls S s i f P → Holding E calls S s' i f P :=
    fun hold => ⟨fun j hj => hrest j (hold.alone j hj), hold.program, hold.free⟩
  have hdir' : ∀ {i f}, (s.progress i).exposed = true → OnDirectory E calls s i f →
      OnDirectory E calls s' i f := by
    intro i f hi hdir
    obtain ⟨hpcb, hpaging⟩ := hexposed i hi hdir.caller
    exact ⟨hpcb.trans hdir.caller, by rw [hpaging]; exact hdir.cr3, by rw [hpaging]; exact hdir.mapped⟩
  refine ⟨fun i => ?_, fun hnone => ?_⟩
  · have hphase := h.phase i
    have hsame := hkeep i
    cases hi : s.progress i with
    | start | entered | failed => exact .of_not_inFlight (hrest i (by rw [hi]; rfl))
    | chosen f =>
      rw [hsame (by rw [hi]; rfl), hi]
      rw [hi] at hphase
      obtain ⟨P, hold, hp⟩ := hphase
      exact ⟨P, hold' hold, hphys.trans hp⟩
    | mapped f =>
      rw [hsame (by rw [hi]; rfl), hi]
      rw [hi] at hphase
      obtain ⟨P, hold, hdir, hp⟩ := hphase
      exact ⟨P, hold' hold, hdir' (by rw [hi]; rfl) hdir, hphys.trans hp⟩
    | loaded f progImg =>
      rw [hsame (by rw [hi]; rfl), hi]
      rw [hi] at hphase
      obtain ⟨P, himg, hold, hdir, hp⟩ := hphase
      exact ⟨P, himg, hold' hold, hdir' (by rw [hi]; rfl) hdir, hphys.trans hp⟩
  · refine hphys.trans (h.idle fun j => ?_)
    by_contra hj
    rw [Bool.not_eq_false] at hj
    have hnone' := hnone j
    rw [hkeep j hj, hj] at hnone'
    cases hnone'

/-- The call `i` has moved on, and is the one in flight. -/
theorem one {k : Kernel} {i : ι} {p : Progress} (hin : p.inFlight = true)
    (halone : ∀ j, j ≠ i → (s.progress j).inFlight = false)
    (hphase : Phase E calls S ⟨k, Function.update s.progress i p⟩ i p) :
    Flight E calls S ⟨k, Function.update s.progress i p⟩ := by
  refine ⟨fun j => ?_, fun hnone => ?_⟩
  · by_cases hj : j = i
    · rw [hj]
      show Phase E calls S _ i (Function.update s.progress i p i)
      rw [Function.update_self]
      exact hphase
    · exact .of_not_inFlight ((congrArg Progress.inFlight (Function.update_of_ne hj p s.progress)).trans
        (halone j hj))
  · have hi : (Function.update s.progress i p i).inFlight = false := hnone i
    rw [Function.update_self, hin] at hi
    cases hi

/-- The call `i` has come to its end, and none is in flight. -/
theorem none {k : Kernel} {i : ι} {p : Progress} (hp : p.inFlight = false)
    (halone : ∀ j, j ≠ i → (s.progress j).inFlight = false) (hphys : k.phys = S.phys) :
    Flight E calls S ⟨k, Function.update s.progress i p⟩ := by
  refine ⟨fun j => .of_not_inFlight ?_, fun _ => hphys⟩
  by_cases hj : j = i
  · rw [hj]
    exact (congrArg Progress.inFlight (Function.update_self i p s.progress)).trans hp
  · exact (congrArg Progress.inFlight (Function.update_of_ne hj p s.progress)).trans (halone j hj)

end Flight

theorem Holding.update {S : Slots ι} {s : Preempt ι} {i : ι} {f : ℕ} {P : Program}
    (h : Holding E calls S s i f P) (k : Kernel) (p : Progress) :
    Holding E calls S ⟨k, Function.update s.progress i p⟩ i f P :=
  ⟨fun j hj => (congrArg Progress.inFlight (Function.update_of_ne hj p s.progress)).trans (h.alone j hj),
    h.program, h.free⟩

namespace Serialised

variable {S₀ : Slots ι} {s s' : Preempt ι} {order : List ι}

/-- A tick that takes no directory away from a call. -/
theorem tick (h : Serialised E calls S₀ s order) (hguard : Undisturbed E calls .tick s)
    (hstep : Preempt.step E calls .tick s = some s') : Serialised E calls S₀ s' order := by
  obtain ⟨k', hk', rfl⟩ := Option.map_eq_some_iff.mp hstep
  obtain ⟨σ, htracks⟩ := h.tracks
  obtain ⟨σ', -, htracks'⟩ := (htracks.tick_effect hk').refines htracks
  obtain ⟨hphys, hbits, hpaging⟩ := tick_frame htracks.curProc hk'
  refine ⟨⟨σ', htracks'⟩, ?_, h.nodup, h.mem, hbits.trans h.bitmap, h.pid, h.cr3, ?_⟩
  · rcases hpaging with heq | ⟨-, p, heq⟩
    · rw [heq]; exact h.ok
    · rw [heq]; exact h.ok.updatePaging p
  · refine h.flight.congr (fun _ _ => rfl) (fun _ hj => hj) hphys fun j hj hcaller => ?_
    have hsame := hguard k' hk' j hj hcaller
    exact ⟨hsame, hpaging.resolve_right fun hmoved => hmoved.1 hsame⟩

/-- The call `i` has moved on and is not finished. -/
theorem moved {i : ι} {p : Progress} {k' : Kernel} (h : Serialised E calls S₀ s order)
    (hi : (s.progress i).finished = false) (hp : p.finished = false) (htracks : ∃ σ, k'.Tracks σ)
    (hok : k'.paging.Ok E.layout) (hbits : k'.pidBitmap = s.kernel.pidBitmap)
    (hflight : Flight E calls (serial (fun i => (calls i).program E) S₀ order)
      ⟨k', Function.update s.progress i p⟩) :
    Serialised E calls S₀ ⟨k', Function.update s.progress i p⟩ order := by
  refine ⟨htracks, hok, h.nodup, fun j => ?_, hbits.trans h.bitmap, fun j => ?_, fun j f c hj => ?_,
    hflight⟩
  all_goals by_cases hji : j = i
  · show j ∈ order ↔ (Function.update s.progress i p j).finished = true
    rw [h.mem j, hji, Function.update_self, hi, hp]
  · show j ∈ order ↔ (Function.update s.progress i p j).finished = true
    rw [h.mem j, Function.update_of_ne hji]
  · show (Function.update s.progress i p j).pid = _
    rw [← h.pid j, hji, Function.update_self, Progress.pid_of_not_finished hi,
      Progress.pid_of_not_finished hp]
  · show (Function.update s.progress i p j).pid = _
    rw [← h.pid j, Function.update_of_ne hji]
  · have hj' : Function.update s.progress i p j = .entered f c := hj
    rw [hji, Function.update_self] at hj'
    rw [hj'] at hp
    cases hp
  · have hj' : Function.update s.progress i p j = .entered f c := hj
    rw [Function.update_of_ne hji] at hj'
    exact h.cr3 j f c hj'

/-- The call `i` has come to its end, as the next one of the order. -/
theorem ended {i : ι} {p : Progress} {k' : Kernel} (h : Serialised E calls S₀ s order)
    (hi : (s.progress i).finished = false) (hp : p.finished = true) (htracks : ∃ σ, k'.Tracks σ)
    (hok : k'.paging.Ok E.layout)
    (hbits : k'.pidBitmap = (serial (fun i => (calls i).program E) S₀ (i :: order)).bitmap)
    (hpid : p.pid = (serial (fun i => (calls i).program E) S₀ (i :: order)).pid i)
    (hcr3 : ∀ f c, p = .entered f c → c = E.layout.dirAdrs f)
    (hflight : Flight E calls (serial (fun i => (calls i).program E) S₀ (i :: order))
      ⟨k', Function.update s.progress i p⟩) :
    Serialised E calls S₀ ⟨k', Function.update s.progress i p⟩ (i :: order) := by
  have hnew : i ∉ order := fun hmem => by
    rw [h.mem i, hi] at hmem
    cases hmem
  refine ⟨htracks, hok, List.nodup_cons.mpr ⟨hnew, h.nodup⟩, fun j => ?_, hbits, fun j => ?_,
    fun j f c hj => ?_, hflight⟩
  all_goals by_cases hji : j = i
  · show j ∈ i :: order ↔ (Function.update s.progress i p j).finished = true
    rw [hji, Function.update_self, hp]
    simp
  · show j ∈ i :: order ↔ (Function.update s.progress i p j).finished = true
    rw [Function.update_of_ne hji, List.mem_cons, ← h.mem j]
    exact or_iff_right hji
  · show (Function.update s.progress i p j).pid = _
    rw [hji, Function.update_self, hpid]
  · show (Function.update s.progress i p j).pid = _
    rw [Function.update_of_ne hji, serial, Slots.execute_pid_of_ne _ _ hji]
    exact h.pid j
  · have hj' : Function.update s.progress i p j = .entered f c := hj
    rw [hji, Function.update_self] at hj'
    exact hcr3 f c hj'
  · have hj' : Function.update s.progress i p j = .entered f c := hj
    rw [Function.update_of_ne hji] at hj'
    exact h.cr3 j f c hj'

/-- A call fails before it has chosen a pid. -/
theorem fail {i : ι} {bytes : List UInt8} (h : Serialised E calls S₀ s order)
    (hi : s.progress i = .start)
    (hnot : (calls i).program E = none ∨ freePid s.kernel.pidBitmap = none) :
    Serialised E calls S₀ ⟨s.kernel.printf bytes, Function.update s.progress i .failed⟩ (i :: order) := by
  have hserial : serial (fun i => (calls i).program E) S₀ (i :: order)
      = serial (fun i => (calls i).program E) S₀ order :=
    Slots.execute_of_none i _ (hnot.imp_right fun hfull => h.bitmap ▸ hfull)
  have hne : ∀ j, (s.progress j).inFlight = true → j ≠ i := by
    rintro j hj rfl
    rw [hi] at hj
    cases hj
  obtain ⟨σ, htracks⟩ := h.tracks
  refine h.ended (by rw [hi]; rfl) rfl ⟨σ, htracks.printf bytes⟩ h.ok ?_ ?_ (fun f c hf => by cases hf) ?_
  · rw [hserial]; exact h.bitmap
  · rw [hserial, ← h.pid i, hi]; rfl
  · rw [hserial]
    refine h.flight.congr (fun j hj => Function.update_of_ne (hne j hj) _ _) (fun j hj => ?_) rfl
      fun _ _ _ => ⟨rfl, rfl⟩
    by_cases hji : j = i
    · rw [hji]
      exact congrArg Progress.inFlight (Function.update_self i _ s.progress)
    · exact (congrArg Progress.inFlight (Function.update_of_ne hji _ _)).trans hj

/-- A call chooses a pid while no other call holds one. -/
theorem choose {i : ι} {f : ℕ} {P : Program} (h : Serialised E calls S₀ s order)
    (hi : s.progress i = .start) (hprog : (calls i).program E = some P)
    (hfree : freePid s.kernel.pidBitmap = some f)
    (halone : ∀ j, j ≠ i → (s.progress j).inFlight = false) :
    Serialised E calls S₀ ⟨s.kernel, Function.update s.progress i (.chosen f)⟩ order := by
  have hidle : ∀ j, (s.progress j).inFlight = false := by
    intro j
    by_cases hji : j = i
    · rw [hji, hi]; rfl
    · exact halone j hji
  have hold : Holding E calls (serial (fun i => (calls i).program E) S₀ order) s i f P :=
    ⟨halone, hprog, h.bitmap ▸ hfree⟩
  exact h.moved (by rw [hi]; rfl) rfl h.tracks h.ok rfl
    (.one rfl halone ⟨P, hold.update _ _, h.flight.idle hidle⟩)

/-- `setup_paging` loads the directory of the chosen pid. -/
theorem map {i : ι} {f : ℕ} (h : Serialised E calls S₀ s order) (hi : s.progress i = .chosen f)
    (hcaller : s.kernel.pcb = pcbAddr (calls i).caller) :
    Serialised E calls S₀ ⟨setupPaging E f s.kernel, Function.update s.progress i (.mapped f)⟩ order := by
  have hphase := h.flight.phase i
  rw [hi] at hphase
  obtain ⟨P, hold, hphys⟩ := hphase
  obtain ⟨σ, htracks⟩ := h.tracks
  have hlt := Kernel.Table.free_lt (k := s.kernel) (h.bitmap ▸ hold.free)
  have htracks' : (setupPaging E f s.kernel).Tracks σ :=
    htracks.congr rfl rfl (fun _ _ => Pcb.SamePlace.refl _) rfl rfl rfl htracks.curProc rfl
  refine h.moved (by rw [hi]; rfl) rfl ⟨σ, htracks'⟩ (h.ok.setupPaging hlt) rfl
    (.one rfl hold.alone ⟨P, hold.update _ _, ⟨hcaller, rfl, ?_⟩, hphys⟩)
  exact s.kernel.paging.pageDir_setupPaging E.layout hlt (Or.inl rfl)

/-- The image is copied into the frame of the chosen pid. -/
theorem load {i : ι} {f : ℕ} {p : Progress} {k' : Kernel} (h : Serialised E calls S₀ s order)
    (hi : s.progress i = .mapped f) (hstep : ClosKernel.advance E (calls i) (.mapped f) s.kernel = some (p, k')) :
    Serialised E calls S₀ ⟨k', Function.update s.progress i p⟩ order := by
  have hphase := h.flight.phase i
  rw [hi] at hphase
  obtain ⟨P, hold, hdir, hphys⟩ := hphase
  obtain ⟨σ, htracks⟩ := h.tracks
  have hlt := Kernel.Table.free_lt (k := s.kernel) (h.bitmap ▸ hold.free)
  rw [advance_mapped_eq hold.program, Option.some_inj, Prod.mk.injEq] at hstep
  obtain ⟨rfl, rfl⟩ := hstep
  have htracks' : ∀ m, Kernel.Tracks { s.kernel with phys := m } σ := fun m =>
    htracks.congr rfl rfl (fun _ _ => Pcb.SamePlace.refl _) rfl rfl rfl htracks.curProc rfl
  refine h.moved (by rw [hi]; rfl) rfl ⟨σ, htracks' _⟩ h.ok rfl
    (.one rfl hold.alone ⟨P, rfl, hold.update _ _, ⟨hdir.caller, hdir.cr3, hdir.mapped⟩, ?_⟩)
  show copyOut _ _ _ _ _ _ = _
  rw [hphys]
  exact copyOut_program _ _ h.ok hlt hdir.mapped hdir.cr3 P.fits

/-- The new process is published and entered, on its own directory. -/
theorem enter {i : ι} {f : ℕ} {progImg args : Mem} (h : Serialised E calls S₀ s order)
    (hi : s.progress i = .loaded f progImg) :
    Serialised E calls S₀ ⟨enterProcess f progImg args s.kernel,
      Function.update s.progress i (.entered f s.kernel.paging.cr3)⟩ (i :: order) := by
  have hphase := h.flight.phase i
  rw [hi] at hphase
  obtain ⟨P, rfl, hold, hdir, hphys⟩ := hphase
  obtain ⟨σ, htracks⟩ := h.tracks
  have hfree : freePid s.kernel.pidBitmap = some f := h.bitmap ▸ hold.free
  have hserial : serial (fun i => (calls i).program E) S₀ (i :: order)
      = ⟨(serial (fun i => (calls i).program E) S₀ order).bitmap ||| pidBit f,
        P.place f (serial (fun i => (calls i).program E) S₀ order).phys,
        Function.update (serial (fun i => (calls i).program E) S₀ order).pid i (some f)⟩ := by
    rw [serial, hold.program, Slots.execute_some i _ hold.free]
  rw [enterProcess_child f _ _ htracks.whichTerm htracks.attemptExit (htracks.pcb_ne_free hfree)]
  obtain ⟨σ', -, htracks'⟩ := htracks.enter_child P.bytes args hfree
  refine h.ended (by rw [hi]; rfl) rfl ⟨σ', htracks'⟩ h.ok ?_ ?_ ?_ (.none rfl hold.alone ?_)
  · rw [hserial]
    exact congrArg (· ||| pidBit f) h.bitmap
  · rw [hserial]
    simp only [Progress.pid, Function.update_self]
  · rintro f' c hfc
    cases hfc
    exact hdir.cr3
  · rw [hserial]
    exact hphys

/-- **A step of a call** that chooses no pid while another call holds one. -/
theorem advance {i : ι} (h : Serialised E calls S₀ s order)
    (hguard : Undisturbed E calls (.advance i) s)
    (hstep : Preempt.step E calls (.advance i) s = some s') : ∃ order', Serialised E calls S₀ s' order' := by
  by_cases hcaller : s.kernel.pcb = pcbAddr (calls i).caller
  · rw [Preempt.step, if_pos hcaller] at hstep
    obtain ⟨⟨p, k'⟩, hadv, rfl⟩ := Option.map_eq_some_iff.mp hstep
    have hnext := hguard _ hadv
    cases hi : s.progress i with
    | start =>
      rw [hi] at hadv hnext
      rcases advance_start_cases hadv with ⟨rfl, ⟨bytes, rfl⟩, hnot⟩ | ⟨f, P, rfl, rfl, hprog, hfree⟩
      · exact ⟨_, h.fail hi hnot⟩
      · exact ⟨_, h.choose hi hprog hfree (hnext rfl rfl)⟩
    | chosen f =>
      rw [hi, ClosKernel.advance, Option.some_inj, Prod.mk.injEq] at hadv
      obtain ⟨rfl, rfl⟩ := hadv
      exact ⟨_, h.map hi hcaller⟩
    | mapped f =>
      rw [hi] at hadv
      exact ⟨_, h.load hi hadv⟩
    | loaded f progImg =>
      rw [hi, ClosKernel.advance, Option.some_inj, Prod.mk.injEq] at hadv
      obtain ⟨rfl, rfl⟩ := hadv
      exact ⟨_, h.enter hi⟩
    | entered f c =>
      rw [hi] at hadv
      cases hadv
    | failed =>
      rw [hi] at hadv
      cases hadv
  · rw [Preempt.step, if_neg hcaller] at hstep
    cases hstep

end Serialised

/-- The slots as the calls find them. -/
def Kernel.slots (k : Kernel) (ι : Type) : Slots ι := ⟨k.pidBitmap, k.phys, fun _ => none⟩

theorem runs_serialised (hshell : ValidShell E.image) {as : List Action} {k : Kernel}
    (hreach : Reaches E as k) {sched : List (PreemptAction ι)} {s : Preempt ι}
    (hmeets : Meets (Preempt.step E calls) (Undisturbed E calls) sched ⟨k, fun _ => .start⟩)
    (hrun : runs (Preempt.step E calls) sched ⟨k, fun _ => .start⟩ = some s) :
    ∃ order, Serialised E calls (k.slots ι) s order := by
  obtain ⟨htracks, hcpu⟩ := reaches_cpuAgrees hshell hreach
  refine runs_invariant_of_meets (P := fun s => ∃ order, Serialised E calls (k.slots ι) s order) ?_ hmeets
    ⟨[], htracks, hcpu.ok, List.nodup_nil, fun i => by simp [Progress.finished], rfl, fun _ => rfl,
      fun _ _ _ h => (by cases h), fun _ => trivial, fun _ => rfl⟩ hrun
  rintro a s s' hguard ⟨order, h⟩ hstep
  cases a with
  | tick => exact ⟨order, h.tick hguard hstep⟩
  | advance i => exact h.advance hguard hstep

/-- **Preemption safety of calls that are left undisturbed.**  Take any calls of `sys_execute` from a reachable
state, interleaved with ticks in any way in which no call chooses a pid while another one holds an unpublished
pid, and no tick switches away from a call between `setup_paging` and its end.  Then the finished calls have the
outcome of a serial order: the bitmap and the pids are those of that order, no pid is given out twice, each new
process is entered on its own directory, and, once no call is in flight, each image is in the frame of its own
pid and all other bytes are as they were. -/
theorem preempted_execute_serial (hshell : ValidShell E.image) (as : List Action) {k : Kernel}
    (hreach : Reaches E as k) (sched : List (PreemptAction ι)) {s : Preempt ι}
    (hmeets : Meets (Preempt.step E calls) (Undisturbed E calls) sched ⟨k, fun _ => .start⟩)
    (hrun : runs (Preempt.step E calls) sched ⟨k, fun _ => .start⟩ = some s) :
    (∃ order, order.Nodup ∧ (∀ i, i ∈ order ↔ (s.progress i).finished = true) ∧
      s.kernel.pidBitmap = (serial (fun i => (calls i).program E) (k.slots ι) order).bitmap ∧
      (∀ i, (s.progress i).pid = (serial (fun i => (calls i).program E) (k.slots ι) order).pid i) ∧
      ((∀ i, (s.progress i).inFlight = false) →
        s.kernel.phys = (serial (fun i => (calls i).program E) (k.slots ι) order).phys)) ∧
    (∀ i j f, (s.progress i).pid = some f → (s.progress j).pid = some f → i = j) ∧
    (∀ i f cr3, s.progress i = .entered f cr3 → cr3 = E.layout.dirAdrs f) ∧
    ((∀ i, (s.progress i).inFlight = false) →
      (∀ i f, (s.progress i).pid = some f → ∃ P, (calls i).program E = some P ∧
        ∀ o < P.count, s.kernel.phys (frameBase f + imgOffset + o) = P.bytes o) ∧
      ∀ a, (∀ i f P, (s.progress i).pid = some f → (calls i).program E = some P →
        ¬(frameBase f + imgOffset ≤ a ∧ a < frameBase f + imgOffset + P.count)) →
        s.kernel.phys a = k.phys a) := by
  obtain ⟨order, h⟩ := runs_serialised hshell hreach hmeets hrun
  have hsound := serial_sound (fun i => (calls i).program E) (S := k.slots ι) (fun _ => rfl) h.nodup
  have hpid := h.pid
  refine ⟨⟨order, h.nodup, h.mem, h.bitmap, hpid, h.flight.idle⟩, fun i j f hi hj => ?_, h.cr3,
    fun hidle => ⟨fun i f hi => ?_, fun a ha => ?_⟩⟩
  · exact hsound.apart i j f (hpid i ▸ hi) (hpid j ▸ hj)
  · rw [h.flight.idle hidle]
    exact hsound.image i f (hpid i ▸ hi)
  · rw [h.flight.idle hidle]
    exact hsound.frame a fun i f P hi hP => ha i f P ((hpid i).trans hi) hP

end Interleaving

/-- The shells of terminals 1 and 2 (processes 0 and 1) each execute `ls`. -/
def twoCalls : Bool → Call
  | false => ⟨0, default, ascii "ls".toList⟩
  | true => ⟨1, default, ascii "ls".toList⟩

/-- A call loses the CPU between its choice and `setup_paging`, and gets it back. -/
def lateSetup : List (PreemptAction Bool) :=
  [.advance true, .tick, .tick, .advance true, .advance true, .advance true, .tick, .tick,
    .advance false, .advance false, .advance false, .advance false]

/-- Both calls choose before one of them publishes. -/
def sameChoice : List (PreemptAction Bool) :=
  [.advance true, .tick, .advance false, .advance false, .advance false, .advance false, .tick,
    .advance true, .advance true, .advance true]

/-- A call loses the CPU between `setup_paging` and the copy, and gets it back. -/
def wrongDirectory : List (PreemptAction Bool) :=
  [.advance true, .advance true, .tick, .tick, .advance true, .advance true, .tick, .tick,
    .advance false, .advance false, .advance false, .advance false]

/-- The second call chooses its pid, loses the CPU and gets it back before `setup_paging`; then the first call
runs.  The pids are 2 and 3, and both images are in place. -/
theorem preempted_execute_serial_two : ∃ k s, Reaches twoProgramPlatform [.screenChange default 2] k ∧
    runs (Preempt.step twoProgramPlatform twoCalls) lateSetup ⟨k, fun _ => .start⟩ = some s ∧
    (s.progress true).pid = some 2 ∧ (s.progress false).pid = some 3 ∧
    ∀ i f, (s.progress i).pid = some f → ∃ P, (twoCalls i).program twoProgramPlatform = some P ∧
      ∀ o < P.count, s.kernel.phys (frameBase f + imgOffset + o) = P.bytes o := by
  have heval : ((boot twoProgramPlatform default powerOnKernel).any fun k₀ =>
      (runs (step twoProgramPlatform) [.screenChange default 2] k₀).any fun k =>
        decide (Meets (Preempt.step twoProgramPlatform twoCalls) (Undisturbed twoProgramPlatform twoCalls)
          lateSetup ⟨k, fun _ => .start⟩) &&
        (runs (Preempt.step twoProgramPlatform twoCalls) lateSetup ⟨k, fun _ => .start⟩).any
          fun s => decide ((∀ i, (s.progress i).inFlight = false) ∧ (s.progress true).pid = some 2 ∧
            (s.progress false).pid = some 3)) = true := by
    decide +kernel
  simp only [Option.any_eq_true, Bool.and_eq_true, decide_eq_true_eq] at heval
  obtain ⟨k₀, hboot, k, hk, hmeets, s, hs, hidle, htrue, hfalse⟩ := heval
  have hreach := reaches_of_runs hboot hk
  exact ⟨k, s, hreach, hs, htrue, hfalse,
    ((preempted_execute_serial twoProgramPlatform_shell _ hreach _ hmeets hs).2.2.2 hidle).1⟩

/-- **Disturbed calls.**  If both calls choose before one publishes, they get the same pid.  If a tick comes between
`setup_paging` and the copy, the image of the new process overwrites the caller's own program, and the frame of
the new process does not get it. -/
theorem preempted_execute_collides : ∃ k, Reaches twoProgramPlatform [.screenChange default 2] k ∧
    (k.proc 0).curTerminal = 1 ∧ (k.proc 1).curTerminal = 2 ∧
    (∃ s, runs (Preempt.step twoProgramPlatform twoCalls) sameChoice ⟨k, fun _ => .start⟩ = some s ∧
      (s.progress true).pid = some 2 ∧ (s.progress false).pid = some 2) ∧
    ∃ s, runs (Preempt.step twoProgramPlatform twoCalls) wrongDirectory ⟨k, fun _ => .start⟩ = some s ∧
      (s.progress true).pid = some 2 ∧ (s.progress false).pid = some 3 ∧
      k.phys (frameBase 1 + imgOffset + 4) = 1 ∧ s.kernel.phys (frameBase 1 + imgOffset + 4) = 2 ∧
      s.kernel.phys (frameBase 2 + imgOffset + 4) = 0 := by
  have heval : ((boot twoProgramPlatform default powerOnKernel).any fun k₀ =>
      (runs (step twoProgramPlatform) [.screenChange default 2] k₀).any fun k =>
        decide ((k.proc 0).curTerminal = 1 ∧ (k.proc 1).curTerminal = 2) &&
        ((runs (Preempt.step twoProgramPlatform twoCalls) sameChoice ⟨k, fun _ => .start⟩).any fun s =>
          decide ((s.progress true).pid = some 2 ∧ (s.progress false).pid = some 2)) &&
        (runs (Preempt.step twoProgramPlatform twoCalls) wrongDirectory ⟨k, fun _ => .start⟩).any fun s =>
          decide ((s.progress true).pid = some 2 ∧ (s.progress false).pid = some 3 ∧
            k.phys (frameBase 1 + imgOffset + 4) = 1 ∧ s.kernel.phys (frameBase 1 + imgOffset + 4) = 2 ∧
            s.kernel.phys (frameBase 2 + imgOffset + 4) = 0)) = true := by
    decide +kernel
  simp only [Option.any_eq_true, Bool.and_eq_true, decide_eq_true_eq] at heval
  obtain ⟨k₀, hboot, k, hk, ⟨⟨ht0, ht1⟩, hsame⟩, hwrong⟩ := heval
  exact ⟨k, reaches_of_runs hboot hk, ht0, ht1, hsame, hwrong⟩

end ClosKernel
