import ClosKernel.Lib.StackMachine

/-!
# The interrupt descriptor table

`entry` fills the table field by field, sets the handlers with `SET_IDT_ENTRY`, and before it executes the first shell
it replaces the handlers of the exceptions by `exception_user_program`.  The fields are bit fields of eight bytes; what
the processor makes of the eight bytes is `Gate.ofDescriptor`.

* `IdtDesc.val` — the fields in memory, and `Gate.ofDescriptor_val`, what the processor reads there;
* `entryIdt` and `shellIdt` — the table when `entry` turns interrupts on, and the table under which programs run;
* `gate_shellIdt` — **every vector has the gate that it should have**, and no other vector has one.
-/

namespace ClosKernel

open StackMachine
open Function (update)

def kernelCs : BitVec 16 := 0x0010

/-- The addresses that the linker gives to the labels of `idt.S` and to the functions that it calls. -/
structure Symbols where
  /-- `exception_print0` to `exception_print19`; there is no `exception_print15`. -/
  exceptionPrint : ℕ → Word
  exceptionPrintGeneral : Word
  exceptionUserProgram : Word
  pitHandlerWrapper : Word
  keyboardHandlerWrapper : Word
  rtcHandlerWrapper : Word
  pitHandler : Word
  keyboardHandler : Word
  rtcHandler : Word
  syscallHandler : Word
  syscallInvalidNumber : Word
  syscallExit : Word
  syscallTable : Word

/-! ### Descriptors -/

/-- `idt_desc_t` -/
structure IdtDesc where
  offset1500 : BitVec 16
  segSelector : BitVec 16
  reserved4 : BitVec 8
  reserved3 : BitVec 1
  reserved2 : BitVec 1
  reserved1 : BitVec 1
  size : BitVec 1
  reserved0 : BitVec 1
  dpl : BitVec 2
  present : BitVec 1
  offset3116 : BitVec 16

/-- The packed fields as they lie in memory, from the lowest bit on. -/
def IdtDesc.val (d : IdtDesc) : BitVec 64 :=
  d.offset3116 ++ d.present ++ d.dpl ++ d.reserved0 ++ d.size ++ d.reserved1 ++ d.reserved2 ++ d.reserved3 ++
    d.reserved4 ++ d.segSelector ++ d.offset1500

/-- The gate that the processor reads from a descriptor: present, of the system kind, and a 32-bit interrupt or trap
gate. -/
def Gate.ofDescriptor (v : BitVec 64) : Option Gate :=
  if v.extractLsb' 47 1 = 1 ∧ v.extractLsb' 44 1 = 0 ∧ v.extractLsb' 43 1 = 1 ∧ v.extractLsb' 42 1 = 1 ∧
      v.extractLsb' 41 1 = 1 then
    some {
      offset := v.extractLsb' 48 16 ++ v.extractLsb' 0 16
      selector := (v.extractLsb' 16 16).setWidth 32
      dpl := (v.extractLsb' 45 2).toNat
      trap := v.extractLsb' 40 1 == 1 }
  else none

section Fields

variable (d : IdtDesc)

theorem IdtDesc.val_offset : d.val.extractLsb' 48 16 ++ d.val.extractLsb' 0 16 = d.offset3116 ++ d.offset1500 := by
  have hhigh : d.val.extractLsb' 48 16 = d.offset3116 := by
    ext i hi
    simp only [IdtDesc.val, BitVec.getElem_extractLsb', BitVec.getLsbD_append]
    grind
  have hlow : d.val.extractLsb' 0 16 = d.offset1500 := by
    ext i hi
    simp only [IdtDesc.val, BitVec.getElem_extractLsb', BitVec.getLsbD_append]
    grind
  rw [hhigh, hlow]

theorem IdtDesc.val_segSelector : d.val.extractLsb' 16 16 = d.segSelector := by
  ext i hi
  simp only [IdtDesc.val, BitVec.getElem_extractLsb', BitVec.getLsbD_append]
  grind

theorem IdtDesc.val_dpl : d.val.extractLsb' 45 2 = d.dpl := by
  ext i hi
  simp only [IdtDesc.val, BitVec.getElem_extractLsb', BitVec.getLsbD_append]
  grind

theorem IdtDesc.val_present : d.val.extractLsb' 47 1 = d.present := by
  ext i hi
  simp only [IdtDesc.val, BitVec.getElem_extractLsb', BitVec.getLsbD_append]
  grind

/-- The four bits of the type and the one behind them. -/
theorem IdtDesc.val_type :
    d.val.extractLsb' 40 1 = d.reserved3 ∧ d.val.extractLsb' 41 1 = d.reserved2 ∧
    d.val.extractLsb' 42 1 = d.reserved1 ∧ d.val.extractLsb' 43 1 = d.size ∧
    d.val.extractLsb' 44 1 = d.reserved0 := by
  refine ⟨?_, ?_, ?_, ?_, ?_⟩ <;> ext i hi <;>
    simp only [IdtDesc.val, BitVec.getElem_extractLsb', BitVec.getLsbD_append] <;> grind

theorem Gate.ofDescriptor_val :
    Gate.ofDescriptor d.val =
      if d.present = 1 ∧ d.reserved0 = 0 ∧ d.size = 1 ∧ d.reserved1 = 1 ∧ d.reserved2 = 1 then
        some ⟨d.offset3116 ++ d.offset1500, d.segSelector.setWidth 32, d.dpl.toNat, d.reserved3 == 1⟩
      else none := by
  obtain ⟨h₃, h₂, h₁, hsize, h₀⟩ := d.val_type
  rw [Gate.ofDescriptor, d.val_offset, d.val_segSelector, d.val_dpl, d.val_present, h₃, h₂, h₁, hsize, h₀]

end Fields

/-! ### What `entry` writes -/

/-- `SET_IDT_ENTRY` -/
def setIdtEntry (handler : Word) (d : IdtDesc) : IdtDesc :=
  { d with
    offset3116 := ((handler &&& 0xFFFF0000#32) >>> 16).setWidth 16
    offset1500 := (handler &&& 0xFFFF#32).setWidth 16 }

/-- The nine fields that `entry` assigns before it sets a handler. -/
def IdtDesc.assign (dpl : BitVec 2) (reserved3 : BitVec 1) (d : IdtDesc) : IdtDesc :=
  { d with
    present := 1
    dpl := dpl
    segSelector := kernelCs
    reserved4 := 0
    reserved3 := reserved3
    reserved2 := 1
    reserved1 := 1
    size := 1
    reserved0 := 0 }

def IdtDesc.interruptGate (d : IdtDesc) : IdtDesc := d.assign 0 0
def IdtDesc.trapGate (d : IdtDesc) : IdtDesc := d.assign 3 1

/-- The table in the image: `NUM_VEC` times `.quad 0`. -/
def zeroDesc : IdtDesc := ⟨0, 0, 0, 0, 0, 0, 0, 0, 0, 0, 0⟩

abbrev Idt := ℕ → IdtDesc

def Idt.setEntry (idt : Idt) (v : ℕ) (handler : Word) : Idt := update idt v (setIdtEntry handler (idt v))

/-- A gate and its handler. -/
def Idt.setGate (idt : Idt) (v : ℕ) (gate : IdtDesc → IdtDesc) (handler : Word) : Idt :=
  Idt.setEntry (update idt v (gate (idt v))) v handler

/-- The exceptions that have a handler of their own. -/
def namedExceptions : List ℕ := (List.range 20).filter (· ≠ 15)

/-- The gates of the exceptions. -/
def exceptionIdt (S : Symbols) : Idt :=
  let idt : Idt := fun i => if i < 32 then zeroDesc.interruptGate else zeroDesc
  let idt := namedExceptions.foldl (fun idt v => Idt.setEntry idt v (S.exceptionPrint v)) idt
  let idt := Idt.setEntry idt 15 S.exceptionPrintGeneral
  (List.range' 20 12).foldl (fun idt v => Idt.setEntry idt v S.exceptionPrintGeneral) idt

/-- The table when `entry` has filled it: the devices and the system calls behind the exceptions. -/
def entryIdt (S : Symbols) : Idt :=
  let idt := Idt.setGate (exceptionIdt S) 0x20 IdtDesc.interruptGate S.pitHandlerWrapper
  let idt := Idt.setGate idt 0x21 IdtDesc.interruptGate S.keyboardHandlerWrapper
  let idt := Idt.setGate idt 0x28 IdtDesc.interruptGate S.rtcHandlerWrapper
  Idt.setGate idt 0x80 IdtDesc.trapGate S.syscallHandler

/-- The table under which the first shell is executed. -/
def shellIdt (S : Symbols) : Idt :=
  namedExceptions.foldl (fun idt v => Idt.setEntry idt v S.exceptionUserProgram) (entryIdt S)

/-- The gate that the processor finds for a vector. -/
def Idt.gate (idt : Idt) (v : ℕ) : Option Gate := Gate.ofDescriptor (idt v).val

/-! ### What the processor finds -/

theorem setIdtEntry_setIdtEntry (h₁ h₂ : Word) (d : IdtDesc) :
    setIdtEntry h₂ (setIdtEntry h₁ d) = setIdtEntry h₂ d := rfl

/-- The two halves of a handler's address. -/
theorem setIdtEntry_offset (handler : Word) (d : IdtDesc) :
    (setIdtEntry handler d).offset3116 ++ (setIdtEntry handler d).offset1500 = handler := by
  have hhigh : ∀ i < 32, (0xFFFF0000#32).getLsbD i = decide (16 ≤ i) := by decide
  have hlow : ∀ i < 32, (0xFFFF#32).getLsbD i = decide (i < 16) := by decide
  show ((handler &&& 0xFFFF0000#32) >>> 16).setWidth 16 ++ (handler &&& 0xFFFF#32).setWidth 16 = handler
  ext i hi
  simp only [BitVec.getElem_append, BitVec.getElem_setWidth, BitVec.getLsbD_and, BitVec.getLsbD_ushiftRight]
  by_cases h : i < 16
  · rw [dif_pos h, hlow i hi, decide_eq_true h, Bool.and_true, BitVec.getLsbD_eq_getElem hi]
  · have hi' : 16 + (i - 16) = i := by omega
    rw [dif_neg h, hi', hhigh i hi, decide_eq_true (by omega), Bool.and_true, BitVec.getLsbD_eq_getElem hi]

theorem gate_setIdtEntry_assign (handler : Word) (dpl : BitVec 2) (r : BitVec 1) (d : IdtDesc) :
    Gate.ofDescriptor (setIdtEntry handler (d.assign dpl r)).val =
      some ⟨handler, kernelCs.setWidth 32, dpl.toNat, r == 1⟩ := by
  rw [Gate.ofDescriptor_val, setIdtEntry_offset, if_pos ⟨rfl, rfl, rfl, rfl, rfl⟩]
  rfl

/-- Setting the handlers of several vectors. -/
theorem foldl_setEntry (idt : Idt) (handler : ℕ → Word) (vs : List ℕ) (v : ℕ) :
    vs.foldl (fun idt v => Idt.setEntry idt v (handler v)) idt v =
      if v ∈ vs then setIdtEntry (handler v) (idt v) else idt v := by
  induction vs generalizing idt with
  | nil => rfl
  | cons u vs ih =>
    rw [List.foldl_cons, ih, Idt.setEntry]
    by_cases huv : v = u
    · subst huv
      rw [Function.update_self, setIdtEntry_setIdtEntry, ite_self, if_pos List.mem_cons_self]
    · rw [Function.update_of_ne huv]
      simp only [List.mem_cons, huv, false_or]

theorem setGate_apply (idt : Idt) (v : ℕ) (gate : IdtDesc → IdtDesc) (handler : Word) (u : ℕ) :
    Idt.setGate idt v gate handler u = if u = v then setIdtEntry handler (gate (idt v)) else idt u := by
  rw [Idt.setGate, Idt.setEntry]
  by_cases h : u = v
  · rw [h, Function.update_self, Function.update_self, if_pos rfl]
  · rw [Function.update_of_ne h, Function.update_of_ne h, if_neg h]

theorem mem_namedExceptions {v : ℕ} : v ∈ namedExceptions ↔ v < 20 ∧ v ≠ 15 := by
  rw [namedExceptions, List.mem_filter, List.mem_range, decide_eq_true_eq]

/-- An interrupt gate of the kernel. -/
def kernelGate (handler : Word) : Gate := ⟨handler, kernelCs.setWidth 32, 0, false⟩

/-- The gate through which programs make system calls. -/
def systemCallGate (handler : Word) : Gate := ⟨handler, kernelCs.setWidth 32, 3, true⟩

/-- The table as it is meant. -/
def intendedGate (S : Symbols) (v : ℕ) : Option Gate :=
  if v < 20 ∧ v ≠ 15 then some (kernelGate S.exceptionUserProgram)
  else if v < 32 then some (kernelGate S.exceptionPrintGeneral)
  else if v = 0x20 then some (kernelGate S.pitHandlerWrapper)
  else if v = 0x21 then some (kernelGate S.keyboardHandlerWrapper)
  else if v = 0x28 then some (kernelGate S.rtcHandlerWrapper)
  else if v = 0x80 then some (systemCallGate S.syscallHandler)
  else none

theorem exceptionIdt_apply (S : Symbols) (v : ℕ) :
    exceptionIdt S v =
      if v < 20 ∧ v ≠ 15 then setIdtEntry (S.exceptionPrint v) zeroDesc.interruptGate
      else if v < 32 then setIdtEntry S.exceptionPrintGeneral zeroDesc.interruptGate
      else zeroDesc := by
  have hgeneral : v ∈ List.range' 20 12 ↔ 20 ≤ v ∧ v < 32 := by
    rw [List.mem_range'_1]
  simp only [exceptionIdt]
  rw [foldl_setEntry, Idt.setEntry]
  by_cases h15 : v = 15
  · subst h15
    rw [if_neg (by decide), Function.update_self, foldl_setEntry, if_neg (by decide)]
    rfl
  · simp only [Function.update_of_ne h15, foldl_setEntry, mem_namedExceptions, hgeneral]
    by_cases hnamed : v < 20 ∧ v ≠ 15
    · rw [if_neg (by omega), if_pos hnamed, if_pos hnamed, if_pos (by omega)]
    · rw [if_neg hnamed, if_neg hnamed]
      by_cases h32 : v < 32
      · rw [if_pos (by omega), if_pos h32, if_pos h32]
      · rw [if_neg (fun h => h32 h.2), if_neg h32, if_neg h32]

/-- Outside the exceptions, a table has the gates of the devices and of the system calls. -/
theorem entryIdt_apply (S : Symbols) (v : ℕ) :
    entryIdt S v =
      if v = 0x80 then setIdtEntry S.syscallHandler zeroDesc.trapGate
      else if v = 0x28 then setIdtEntry S.rtcHandlerWrapper zeroDesc.interruptGate
      else if v = 0x21 then setIdtEntry S.keyboardHandlerWrapper zeroDesc.interruptGate
      else if v = 0x20 then setIdtEntry S.pitHandlerWrapper zeroDesc.interruptGate
      else exceptionIdt S v := by
  simp only [entryIdt, setGate_apply]
  rfl

theorem gate_zeroDesc : Gate.ofDescriptor zeroDesc.val = none := by
  rw [Gate.ofDescriptor_val, if_neg (by decide)]

theorem gate_interruptGate (handler : Word) :
    Gate.ofDescriptor (setIdtEntry handler zeroDesc.interruptGate).val = some (kernelGate handler) :=
  gate_setIdtEntry_assign handler 0 0 zeroDesc

theorem gate_trapGate (handler : Word) :
    Gate.ofDescriptor (setIdtEntry handler zeroDesc.trapGate).val = some (systemCallGate handler) :=
  gate_setIdtEntry_assign handler 3 1 zeroDesc

theorem gate_shellIdt (S : Symbols) (v : ℕ) : Idt.gate (shellIdt S) v = intendedGate S v := by
  rw [Idt.gate, shellIdt, foldl_setEntry, entryIdt_apply, exceptionIdt_apply, intendedGate]
  simp only [mem_namedExceptions]
  by_cases hnamed : v < 20 ∧ v ≠ 15
  · rw [if_pos hnamed, if_pos hnamed, if_neg (by omega), if_neg (by omega), if_neg (by omega), if_neg (by omega),
      if_pos hnamed, setIdtEntry_setIdtEntry, gate_interruptGate]
  · rw [if_neg hnamed, if_neg hnamed, if_neg hnamed]
    by_cases h32 : v < 32
    · rw [if_pos h32, if_neg (by omega), if_neg (by omega), if_neg (by omega), if_neg (by omega), if_pos h32,
        gate_interruptGate]
    · rw [if_neg h32, if_neg h32]
      -- The devices, the system calls, and the vectors that have nothing.
      by_cases h80 : v = 0x80
      · subst h80
        exact gate_trapGate _
      by_cases h28 : v = 0x28
      · subst h28
        exact gate_interruptGate _
      by_cases h21 : v = 0x21
      · subst h21
        exact gate_interruptGate _
      by_cases h20 : v = 0x20
      · subst h20
        exact gate_interruptGate _
      simp only [h80, h28, h21, h20, if_false]
      exact gate_zeroDesc

end ClosKernel
