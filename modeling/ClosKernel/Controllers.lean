import ClosKernel.Keyboard
import ClosKernel.Reach
import ClosKernel.Lib.InterruptController

/-!
# The interrupt controllers (`i8259.c`)

The rest of the model knows of the interrupt controllers only which lines are in service.  Here the functions of
`i8259.c` write to the ports, and the two controllers do what their manual says.

* `i8259Init`, `enableIrq`, `disableIrq`, `sendEoi` — the functions, as sequences of port accesses;
* `Shows` — what the controllers hold, in terms of lines;
* `controllers_refine` — **the ports do what the kernel's model says**: over any sequence of calls, requests and
  interrupts, the masks are the lines that were enabled, the lines in service are those of the kernel, and the
  processor gets the vector of a line that is enabled.
-/

namespace ClosKernel

open InterruptController
open Function (update)

/-! ### The ports -/

def master8259Port : ℕ := 0x20
def slave8259Port : ℕ := 0xA0
def masterPortData : ℕ := master8259Port + 1
def slavePortData : ℕ := slave8259Port + 1

def outb (v : BitVec 8) (port : ℕ) (p : Pair) : Pair :=
  if port = master8259Port then { p with master := p.master.command v }
  else if port = masterPortData then { p with master := p.master.data v }
  else if port = slave8259Port then { p with slave := p.slave.command v }
  else if port = slavePortData then { p with slave := p.slave.data v }
  else p

/-- The data ports read as the masks. -/
def inb (port : ℕ) (p : Pair) : BitVec 8 :=
  if port = masterPortData then p.master.imr else if port = slavePortData then p.slave.imr else 0

/-! ### The functions -/

/-- The port accesses of `i8259_init`: the masks, the four words of the initialisation, and the masks again. -/
def i8259Words : List (BitVec 8 × ℕ) :=
  [(0xFF, masterPortData), (0xFF, slavePortData), (0x11, master8259Port), (0x11, slave8259Port),
    (0x20, masterPortData), (0x28, slavePortData), (0x04, masterPortData), (0x02, slavePortData),
    (0x01, masterPortData), (0x01, slavePortData), (0xFF, masterPortData), (0xFF, slavePortData)]

def i8259Init (p : Pair) : Pair := i8259Words.foldl (fun p w => outb w.1 w.2 p) p

def enableIrq (irqNum : ℕ) (p : Pair) : Pair :=
  if 8 ≤ irqNum ∧ irqNum < 16 then
    let tmp := ~~~(1#8 <<< (irqNum - 8))
    outb (inb slavePortData p &&& tmp) slavePortData p
  else if irqNum < 8 then
    let tmp := ~~~(1#8 <<< irqNum)
    outb (inb masterPortData p &&& tmp) masterPortData p
  else p

def disableIrq (irqNum : ℕ) (p : Pair) : Pair :=
  if 8 ≤ irqNum ∧ irqNum < 16 then
    outb (inb slavePortData p ||| (1#8 <<< (irqNum - 8))) slavePortData p
  else if irqNum < 8 then
    outb (inb masterPortData p ||| (1#8 <<< irqNum)) masterPortData p
  else p

def eoi : BitVec 8 := 0x60

def sendEoi (irqNum : ℕ) (p : Pair) : Pair :=
  if irqNum < 16 then
    if 8 ≤ irqNum then
      let p := outb (eoi ||| BitVec.ofNat 8 (irqNum - 8)) slave8259Port p
      outb (eoi ||| 2) master8259Port p
    else outb (eoi ||| BitVec.ofNat 8 irqNum) master8259Port p
  else p

/-! ### What the controllers hold -/

/-- The lines of the second controller. -/
def upper (f : ℕ → Bool) : ℕ → Bool := fun i => f (8 + i)

/-- The controllers are set up for the vectors from 0x20 on, the lines `enabled` are not masked, and the lines of
`isr` are in service. -/
structure Shows (p : Pair) (enabled isr : ℕ → Bool) : Prop where
  cascaded : p.Cascaded 0x20 0x28
  mask₁ : HasBits p.master.imr (Bool.not ∘ enabled)
  mask₂ : HasBits p.slave.imr (Bool.not ∘ upper enabled)
  isr₁ : HasBits p.master.isr isr
  isr₂ : HasBits p.slave.isr (upper isr)

/-- `i8259_init`, whatever the controllers were doing before. -/
theorem shows_init (p : Pair) : Shows (i8259Init p) (fun _ => false) fun _ => false := by
  refine ⟨⟨rfl, rfl, rfl, rfl, rfl, rfl, rfl, rfl⟩, ?_, ?_, ?_, ?_⟩
  · show ∀ i < 8, (0xFF#8).getLsbD i = true
    decide
  · show ∀ i < 8, (0xFF#8).getLsbD i = true
    decide
  · exact fun i _ => BitVec.getLsbD_zero
  · exact fun i _ => BitVec.getLsbD_zero

section Calls

variable {p : Pair} {enabled isr : ℕ → Bool}

theorem upper_update_of_lt (f : ℕ → Bool) {n : ℕ} (hn : n < 8) (b : Bool) : upper (update f n b) = upper f := by
  funext i
  rw [upper, Function.update_of_ne (by omega), upper]

theorem upper_update (f : ℕ → Bool) (n : ℕ) (b : Bool) : upper (update f (8 + n) b) = update (upper f) n b :=
  Function.update_comp_eq_of_injective f (add_right_injective 8) n b

/-- The first controller does not see the lines of the second. -/
theorem hasBits_update_upper {x : BitVec 8} {f : ℕ → Bool} (h : HasBits x f) (n : ℕ) (b : Bool) :
    HasBits x (update f (8 + n) b) :=
  h.congr fun i hi => by rw [Function.update_of_ne (by omega)]

theorem outb_masterPortData (v : BitVec 8) (h : p.master.phase = .ready) :
    outb v masterPortData p = { p with master := { p.master with imr := v } } :=
  congrArg (fun c => { p with master := c }) (p.master.data_ready v h)

theorem outb_slavePortData (v : BitVec 8) (h : p.slave.phase = .ready) :
    outb v slavePortData p = { p with slave := { p.slave with imr := v } } :=
  congrArg (fun c => { p with slave := c }) (p.slave.data_ready v h)

/-- The line of a call, at the first or the second controller. -/
theorem line_cases (n : ℕ) : n < 8 ∨ (∃ j < 8, n = 8 + j) ∨ 16 ≤ n := by
  by_cases h : n < 8
  · exact .inl h
  · by_cases h' : n < 16
    · exact .inr (.inl ⟨n - 8, by omega, by omega⟩)
    · exact .inr (.inr (by omega))

/-- A call that changes the mask of one line by `g`. -/
theorem Shows.masked {g : BitVec 8 → ℕ → BitVec 8} {b : Bool} (h : Shows p enabled isr)
    (hg : ∀ {x f n}, HasBits x f → n < 8 → HasBits (g x n) (update f n !b)) (irqNum : ℕ) :
    Shows (if 8 ≤ irqNum ∧ irqNum < 16 then outb (g (inb slavePortData p) (irqNum - 8)) slavePortData p
        else if irqNum < 8 then outb (g (inb masterPortData p) irqNum) masterPortData p else p)
      (if irqNum < 16 then update enabled irqNum b else enabled) isr := by
  rcases line_cases irqNum with hlt | ⟨j, hj, rfl⟩ | hge
  · rw [if_neg (by omega), if_pos hlt, if_pos (by omega), outb_masterPortData _ h.cascaded.ready₁]
    refine { h with cascaded := { h.cascaded with }, mask₁ := ?_, mask₂ := ?_ }
    · rw [Function.comp_update]
      exact hg h.mask₁ hlt
    · rw [upper_update_of_lt enabled hlt]
      exact h.mask₂
  · rw [if_pos (by omega), if_pos (by omega), outb_slavePortData _ h.cascaded.ready₂, Nat.add_sub_cancel_left]
    refine { h with cascaded := { h.cascaded with }, mask₁ := ?_, mask₂ := ?_ }
    · rw [Function.comp_update]
      exact hasBits_update_upper h.mask₁ j _
    · rw [upper_update, Function.comp_update]
      exact hg h.mask₂ hj
  · rwa [if_neg (by omega), if_neg (by omega), if_neg (by omega)]

theorem Shows.enableIrq (h : Shows p enabled isr) (irqNum : ℕ) :
    Shows (enableIrq irqNum p) (if irqNum < 16 then update enabled irqNum true else enabled) isr :=
  Shows.masked (g := fun x n => x &&& ~~~bit n) (b := true) h (fun hx hn => hx.clear hn) irqNum

theorem Shows.disableIrq (h : Shows p enabled isr) (irqNum : ℕ) :
    Shows (disableIrq irqNum p) (if irqNum < 16 then update enabled irqNum false else enabled) isr :=
  Shows.masked (g := fun x n => x ||| bit n) (b := false) h (fun hx hn => hx.set hn) irqNum

theorem Shows.sendEoi {k : Kernel} (h : Shows p enabled k.isr) (irqNum : ℕ) :
    Shows (sendEoi irqNum p) enabled (k.sendEoi irqNum).isr := by
  unfold ClosKernel.sendEoi Kernel.sendEoi
  rcases line_cases irqNum with hlt | ⟨j, hj, rfl⟩ | hge
  · rw [if_pos (by omega), if_neg (by omega), if_pos (by omega), if_neg (by omega)]
    have hout : outb (eoi ||| BitVec.ofNat 8 irqNum) master8259Port p =
        { p with master := { p.master with isr := p.master.isr &&& ~~~bit irqNum } } :=
      congrArg (fun c => { p with master := c }) (p.master.command_eoi hlt)
    rw [hout]
    refine { h with cascaded := { h.cascaded with }, isr₁ := h.isr₁.clear hlt, isr₂ := ?_ }
    show HasBits _ (upper (update k.isr irqNum false))
    rw [upper_update_of_lt k.isr hlt]
    exact h.isr₂
  · rw [if_pos (by omega), if_pos (by omega), if_pos (by omega), if_pos (by omega), Nat.add_sub_cancel_left]
    have hout : outb (eoi ||| 2) master8259Port (outb (eoi ||| BitVec.ofNat 8 j) slave8259Port p) =
        ⟨{ p.master with isr := p.master.isr &&& ~~~bit 2 }, { p.slave with isr := p.slave.isr &&& ~~~bit j }⟩ :=
      congrArg₂ Pair.mk (p.master.command_eoi (n := 2) (by decide)) (p.slave.command_eoi hj)
    rw [hout]
    refine { h with cascaded := { h.cascaded with }, isr₁ := ?_, isr₂ := ?_ }
    · exact (hasBits_update_upper h.isr₁ j false).clear (by decide)
    · show HasBits _ (upper (update (update k.isr (8 + j) false) 2 false))
      rw [upper_update_of_lt _ (by decide), upper_update]
      exact h.isr₂.clear hj
  · rwa [if_neg (by omega), if_neg (by omega)]

/-- The processor has been told of a line: the kernel's model has it in service, and with a line of the second
controller also line 2 of the first. -/
def Kernel.accept (line : ℕ) (k : Kernel) : Kernel := if 8 ≤ line then (k.raise line).raise 2 else k.raise line

theorem Shows.inta {k : Kernel} (h : Shows p enabled k.isr) {v : BitVec 8} {p' : Pair} (hv : p.inta = some (v, p')) :
    ∃ line < 16, line ≠ 2 ∧ v = 0x20#8 + BitVec.ofNat 8 line ∧ enabled line = true ∧
      (8 ≤ line → enabled 2 = true) ∧ k.isr line = false ∧ Shows p' enabled (k.accept line).isr := by
  have henabled : ∀ {x : BitVec 8} {f : ℕ → Bool} {i : ℕ}, HasBits x (Bool.not ∘ f) → i < 8 → x.getLsbD i = false →
      f i = true := fun hx hi h0 => by
    have hi' := hx _ hi
    rw [h0, Function.comp_apply] at hi'
    simpa using hi'.symm
  rcases p.inta_spec h.cascaded hv with ⟨i, hi, h2, hvec, himr, hisr, rfl⟩ | ⟨j, hj, hvec, himr, hisr, himr₂, -, rfl⟩
  · refine ⟨i, by omega, h2, hvec, henabled h.mask₁ hi himr, fun h8 => by omega, ?_, ?_⟩
    · rw [← h.isr₁ i hi, hisr]
    · rw [Kernel.accept, if_neg (by omega)]
      refine { h with cascaded := { h.cascaded with }, isr₁ := ?_, isr₂ := ?_ }
      · rw [p.wired.acknowledge_isr i h.cascaded.told₁]
        exact h.isr₁.set hi
      · show HasBits _ (upper (update k.isr i true))
        rw [upper_update_of_lt k.isr hi]
        exact h.isr₂
  · refine ⟨8 + j, by omega, by omega, ?_, henabled (f := upper enabled) h.mask₂ hj himr,
      fun _ => henabled h.mask₁ (by decide) himr₂, ?_, ?_⟩
    · rw [hvec]
      bv_omega
    · rw [← hisr, h.isr₂ j hj, upper]
    · rw [Kernel.accept, if_pos (by omega)]
      refine { h with cascaded := { h.cascaded with }, isr₁ := ?_, isr₂ := ?_ }
      · rw [p.wired.acknowledge_isr 2 h.cascaded.told₁]
        exact (hasBits_update_upper h.isr₁ j true).set (by decide)
      · rw [p.slave.acknowledge_isr j h.cascaded.told₂]
        show HasBits _ (upper (update (update k.isr (8 + j) true) 2 true))
        rw [upper_update_of_lt _ (by decide), upper_update]
        exact h.isr₂.set hj

end Calls

/-! ### Runs -/

inductive PicEvent where
  | enable (irqNum : ℕ)
  | disable (irqNum : ℕ)
  | eoi (irqNum : ℕ)
  /-- Devices raise and drop their lines. -/
  | request (lines₁ lines₂ : BitVec 8)
  /-- The processor asks for a vector. -/
  | inta

/-- An event at the ports, with the vector that the processor gets. -/
def picStep (p : Pair) : PicEvent → Pair × Option (BitVec 8)
  | .enable n => (enableIrq n p, none)
  | .disable n => (disableIrq n p, none)
  | .eoi n => (sendEoi n p, none)
  | .request l₁ l₂ => (⟨{ p.master with irr := l₁ }, { p.slave with irr := l₂ }⟩, none)
  | .inta => (p.inta.map fun r => (r.2, some r.1)).getD (p, none)

/-- The lines that are enabled, and the kernel. -/
structure PicView where
  enabled : ℕ → Bool
  kernel : Kernel

/-- The same event in the kernel's model. -/
def viewStep (w : PicView) : PicEvent → Option (BitVec 8) → PicView
  | .enable n, _ => { w with enabled := if n < 16 then update w.enabled n true else w.enabled }
  | .disable n, _ => { w with enabled := if n < 16 then update w.enabled n false else w.enabled }
  | .eoi n, _ => { w with kernel := w.kernel.sendEoi n }
  | .request _ _, _ => w
  | .inta, none => w
  | .inta, some v => { w with kernel := w.kernel.accept (v.toNat - 0x20) }

/-- Both side by side. -/
def picRun (p : Pair) (w : PicView) : List PicEvent → Pair × PicView
  | [] => (p, w)
  | e :: es => picRun (picStep p e).1 (viewStep w e (picStep p e).2) es

theorem Shows.step {p : Pair} {w : PicView} (h : Shows p w.enabled w.kernel.isr) (e : PicEvent) :
    Shows (picStep p e).1 (viewStep w e (picStep p e).2).enabled (viewStep w e (picStep p e).2).kernel.isr := by
  cases e with
  | enable n => exact h.enableIrq n
  | disable n => exact h.disableIrq n
  | eoi n => exact h.sendEoi n
  | request l₁ l₂ => exact { h with cascaded := { h.cascaded with } }
  | inta =>
    cases hv : p.inta with
    | none =>
      simp only [picStep, hv, Option.map_none, Option.getD_none, viewStep]
      exact h
    | some r =>
      obtain ⟨line, hline, -, hvec, -, -, -, h'⟩ := h.inta hv
      have hvec' : r.1.toNat - 0x20 = line := by
        rw [hvec]
        bv_omega
      simp only [picStep, hv, Option.map_some, Option.getD_some, viewStep, hvec']
      exact h'

theorem Shows.run {p : Pair} {w : PicView} (h : Shows p w.enabled w.kernel.isr) (es : List PicEvent) :
    Shows (picRun p w es).1 (picRun p w es).2.enabled (picRun p w es).2.kernel.isr := by
  induction es generalizing p w with
  | nil => exact h
  | cons e es ih => exact ih (h.step e)

/-- **The ports do what the kernel's model says.** -/
theorem controllers_refine (p : Pair) (k : Kernel) (hk : ∀ n, k.isr n = false) (es : List PicEvent) :
    let r := picRun (i8259Init p) ⟨fun _ => false, k⟩ es
    Shows r.1 r.2.enabled r.2.kernel.isr ∧ ∀ v p', r.1.inta = some (v, p') →
      ∃ line < 16, line ≠ 2 ∧ v.toNat = 0x20 + line ∧ r.2.enabled line = true ∧
        (8 ≤ line → r.2.enabled 2 = true) ∧ r.2.kernel.isr line = false := by
  have hstart : Shows (i8259Init p) (fun _ => false) k.isr := by
    rw [show k.isr = fun _ => false from funext hk]
    exact shows_init p
  have h := hstart.run (w := ⟨fun _ => false, k⟩) es
  refine ⟨h, fun v p' hv => ?_⟩
  obtain ⟨line, hline, h2, hvec, hen, hen₂, hisr, -⟩ := h.inta hv
  refine ⟨line, hline, h2, ?_, hen, hen₂, hisr⟩
  rw [hvec]
  bv_omega

/-- Controllers in the middle of something. -/
def strayPair : Pair :=
  ⟨⟨0x12, 0x80, 0x40, 8, 0, true, .icw3, true, false⟩, ⟨0, 1, 1, 0x70, 7, false, .icw4, false, true⟩⟩

theorem controllers_refine_clock :
    let r := picRun (i8259Init strayPair) ⟨fun _ => false, powerOnKernel⟩
      [.enable 8, .enable 2, .request 0 1, .inta, .eoi 8]
    Shows r.1 r.2.enabled r.2.kernel.isr :=
  (controllers_refine strayPair powerOnKernel (fun _ => rfl) [.enable 8, .enable 2, .request 0 1, .inta, .eoi 8]).1

end ClosKernel
