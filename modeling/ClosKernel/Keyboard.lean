import ClosKernel.Terminals
import ClosKernel.Drivers

/-!
# The keyboard (`keyboard.c`, `keyhelper.c`)

`keyboard_handler` reads scancodes from the port and decides by them alone what it does.  `keyEvents` is this decision:
given what `inb(KB_PORT)` returns, in order, it lists the blocks of the handler that are run.  `keyStep` is one block.
Where the reads end before the handler does, it is still waiting, and the result is `none`.

* `keyEvents_cases` — everything the handler can do; `keyEvents_cntrl`, `keyEvents_alt` — the two commands;
* `keyEvents_released` — a released key does nothing;
* `setCaps_table` — only the entry of the caps key ever changes.
-/

namespace ClosKernel

open PartialRun

/-! ### Scancodes -/

def caps : UInt8 := 0x3A
def clr : UInt8 := 0x26
def f1 : UInt8 := 0x3B
def f2 : UInt8 := 0x3C
def f3 : UInt8 := 0x3D
def lshft : UInt8 := 0x80
def rshft : UInt8 := 0x81
def lushft : UInt8 := 0xAA
def rushft : UInt8 := 0xB6

/-- The scancode of the control key being released. -/
def uncntrl : UInt8 := 0x9D

def scanlimit : UInt8 := 128
def lowerlet : UInt8 := 0x60
def upperlet : UInt8 := 0x7B
def capchange : UInt8 := 0x20

/-- The entries that `keyhelper.c` writes out for `getChar[128]`; the rest of the array is zero. -/
def getCharEntries : List UInt8 :=
  [0xFF, 0xFF] ++ ascii "1234567890-=".toList ++ [0x08, 0xFF] ++ ascii "qwertyuiop[]".toList ++ [0x0A, 0x00] ++
    ascii "asdfghjkl;'`".toList ++ [lshft] ++ ascii "\\zxcvbnm,./".toList ++ [rshft] ++ ascii "*".toList ++ [0x00] ++
    ascii " ".toList ++ [0x00] ++ List.replicate 15 0xFF ++ ascii "-".toList ++ List.replicate 3 0xFF ++
    ascii "+".toList ++ List.replicate 11 0xFF

/-- The bytes from `getChar` on, as far as a scancode reaches.  The array has 128 of them; what the scancode of a
released key finds behind it is not known. -/
abbrev KeyMap := UInt8 → UInt8

/-- `getChar` when the kernel is loaded. -/
def KeyMap.Loaded (g : KeyMap) : Prop := ∀ c, c < scanlimit → g c = getCharEntries.getD c.toNat 0

def scan2Let (g : KeyMap) (scancode : UInt8) : UInt8 := g scancode

def setCaps (set : UInt8) (g : KeyMap) : KeyMap := Function.update g caps set

/-- The keys that `getShift` knows, with what they become. -/
def shiftPairs : List (UInt8 × UInt8) :=
  (ascii "`1234567890-=[]\\;',./".toList).zip (ascii "~!@#$%^&*()_+\x7b\x7d|:\"<>?".toList)

def getShift (letter : UInt8) : UInt8 := (shiftPairs.lookup letter).getD 0xFF

/-! ### The blocks of the handler -/

/-- `keyInt = 1; printf("%c", letter); keyInt = 0; updatecursor();` while a process of terminal `cur` is running. -/
def Screen.echo (cur : ℤ) (letter : UInt8) (s : Screen) : Screen :=
  let s := { s with keyInt := true }
  let s := s.puts cur [letter]
  let s := { s with keyInt := false }
  s.updatecursor

/-- `if(insert(letter)<128)` and its body. -/
def Kernel.typed (letter : UInt8) (k : Kernel) : Kernel :=
  let (n, k) := k.insert letter
  if n < 128 then k.setScreen (k.screen.echo k.cur.curTerminal letter) else k

/-- The branch of the backspace key. -/
def Kernel.erased (k : Kernel) : Kernel :=
  let (i, k) := k.backspacebuf
  if -1 < i then
    let k := k.setScreen k.screen.backspace
    k.setScreen k.screen.updatecursor
  else k

/-- The body of the branch for Ctrl-L. -/
def Kernel.cleared (k : Kernel) : Kernel :=
  let k := k.setScreen k.screen.clear
  let k := k.clearbuf
  k.setScreen k.screen.updatecursor

inductive KeyEvent where
  | letter (c : UInt8)
  | backspace
  | clear
  | switch (n : ℤ)
  deriving DecidableEq

def keyStep (E : Platform) (st : Stack) : KeyEvent → Kernel → Option Kernel
  | .letter c, k => some (k.typed c)
  | .backspace, k => some k.erased
  | .clear, k => some k.cleared
  | .switch n, k => screenChange E st n k

/-! ### Which blocks are run -/

/-- A letter key is shifted by a distance, the others by `getShift`; codes of released keys are skipped. -/
def shifted (g : KeyMap) (scancode : UInt8) : List KeyEvent :=
  let letter := scan2Let g scancode
  if scancode < scanlimit then
    if lowerlet < letter ∧ letter < upperlet then [.letter (letter - capchange)]
    else [.letter (getShift letter)]
  else []

/-- With caps lock on, shift leaves letters as they are. -/
def capsShifted (g : KeyMap) (scancode : UInt8) : List KeyEvent :=
  let letter := scan2Let g scancode
  if scancode < scanlimit then
    if lowerlet < letter ∧ letter < upperlet then [.letter letter]
    else [.letter (getShift letter)]
  else []

/-- The loops `while(inb(KB_PORT)!=LUSHFT)` and `while(inb(KB_PORT)!=RUSHFT)` with caps lock off: the port is read
twice in a round. -/
def shiftLoop (g : KeyMap) (unshift : UInt8) : List UInt8 → Option (List KeyEvent)
  | [] => none
  | [first] => if first = unshift then some [] else none
  | first :: scancode :: reads =>
    if first = unshift ∨ scancode = unshift then some []
    else (shiftLoop g unshift reads).map (shifted g scancode ++ ·)

/-- The same loops with caps lock on: the port is read three times in a round. -/
def capsShiftLoop (g : KeyMap) (unshift : UInt8) : List UInt8 → Option (List KeyEvent)
  | [] => none
  | [first] => if first = unshift then some [] else none
  | [first, second] => if first = unshift ∨ second = unshift then some [] else none
  | first :: second :: scancode :: reads =>
    if first = unshift ∨ second = unshift then some []
    else (capsShiftLoop g unshift reads).map (capsShifted g scancode ++ ·)

/-- The branch of a key that is pressed and is no command. -/
def pressedKey (g : KeyMap) (scancode : UInt8) (reads : List UInt8) : Option (List KeyEvent) :=
  let letter := scan2Let g scancode
  if scan2Let g caps = 0 then
    if letter = lshft then shiftLoop g lushft reads
    else if letter = rshft then shiftLoop g rushft reads
    else some [.letter letter]
  else
    if letter = lshft then capsShiftLoop g lushft reads
    else if letter = rshft then capsShiftLoop g rushft reads
    else if lowerlet < letter ∧ letter < upperlet then some [.letter (letter - capchange)]
    else some [.letter letter]

/-- The branch of the control key: if the next key is L, the screen is cleared once the control key is released. -/
def controlKey : List UInt8 → Option (List KeyEvent)
  | [] => none
  | next :: reads => if next = clr then if uncntrl ∈ reads then some [.clear] else none else some []

/-- The branch of the alt key. -/
def altKey : List UInt8 → Option (List KeyEvent)
  | [] => none
  | scancode :: _ =>
    if scancode = f1 then some [.switch 1]
    else if scancode = f2 then some [.switch 2]
    else if scancode = f3 then some [.switch 3]
    else some []

/-- The blocks that `keyboard_handler` runs, and the table it leaves. -/
def keyEvents (g : KeyMap) : List UInt8 → Option (List KeyEvent × KeyMap)
  | [] => none
  | scancode :: reads =>
    let check := scancode >>> 7
    if scan2Let g scancode = 0xFF then some ([], g)
    else if scancode = caps ∧ scan2Let g scancode = 0x00 then some ([], setCaps 0x01 g)
    else if scancode = caps ∧ scan2Let g scancode = 0x01 then some ([], setCaps 0x00 g)
    else if scancode = cntrl then (controlKey reads).map (·, g)
    else if scancode = alt then (altKey reads).map (·, g)
    else if scancode = bksp then some ([.backspace], g)
    else if check &&& 0x01 = 0 then (pressedKey g scancode reads).map (·, g)
    else some ([], g)

/-- A switch that starts a shell does not come back; it has acknowledged the interrupt already. -/
def keyboardHandler (E : Platform) (st : Stack) (reads : List UInt8) (g : KeyMap) (k : Kernel) :
    Option (KeyMap × Kernel) :=
  (keyEvents g reads).bind fun r => (runs (keyStep E st) r.1 k).map fun k => (r.2, k.sendEoi 1)

/-- The interrupt controller puts a line in service. -/
def Kernel.raise (irqNum : ℕ) (k : Kernel) : Kernel := { k with isr := Function.update k.isr irqNum true }

/-! ### Reading the keys -/

/-- What the table holds while the kernel runs: caps lock is off or on, the rest is as it was loaded. -/
structure KeyMap.Table (g : KeyMap) : Prop where
  caps : g caps = 0 ∨ g caps = 1
  entry : ∀ c, c < scanlimit → c ≠ ClosKernel.caps → g c = getCharEntries.getD c.toNat 0

theorem KeyMap.Loaded.table {g : KeyMap} (h : g.Loaded) : g.Table :=
  ⟨Or.inl (h _ (by decide)), fun c hc _ => h c hc⟩

theorem setCaps_table {g : KeyMap} (h : g.Table) {set : UInt8} (hset : set = 0 ∨ set = 1) :
    (setCaps set g).Table := by
  refine ⟨?_, fun c hc hne => ?_⟩
  · rw [setCaps, Function.update_self]
    exact hset
  · rw [setCaps, Function.update_of_ne hne]
    exact h.entry c hc hne

/-- The bit that `check` is made from tells a released key from one being pressed. -/
theorem check_eq_zero_iff (scancode : UInt8) : (scancode >>> 7) &&& 0x01 = 0 ↔ scancode < scanlimit := by
  have hall : ∀ n : Fin 256, (UInt8.ofNat n.val >>> 7) &&& 0x01 = 0 ↔ UInt8.ofNat n.val < scanlimit := by decide +kernel
  have hscan := hall ⟨scancode.toNat, scancode.toNat_lt⟩
  rwa [UInt8.ofNat_toNat] at hscan

variable {g g' : KeyMap} {reads : List UInt8} {events : List KeyEvent}

/-- The byte that a block of the handler passes to `insert`. -/
def KeyEvent.inserts : KeyEvent → List UInt8
  | .letter c => [c]
  | .backspace | .clear | .switch _ => []

/-- The commands insert nothing. -/
theorem controlKey_inserts (h : controlKey reads = some events) : events.flatMap KeyEvent.inserts = [] := by
  cases reads with
  | nil => cases h
  | cons next reads =>
    rw [controlKey] at h
    split at h
    · split at h
      · cases h
        rfl
      · cases h
    · cases h
      rfl

theorem altKey_inserts (h : altKey reads = some events) : events.flatMap KeyEvent.inserts = [] := by
  cases reads with
  | nil => cases h
  | cons next reads =>
    rw [altKey] at h
    split at h
    · cases h
      rfl
    split at h
    · cases h
      rfl
    split at h
    · cases h
      rfl
    · cases h
      rfl

/-- The handler does not come to the branches that insert. -/
def Passes (g : KeyMap) (scancode : UInt8) : Prop :=
  scan2Let g scancode = 0xFF ∨ scancode = caps ∧ (scan2Let g scancode = 0x00 ∨ scan2Let g scancode = 0x01) ∨
    scancode = cntrl ∨ scancode = alt ∨ scancode = bksp ∨ scanlimit ≤ scancode

instance (g : KeyMap) (scancode : UInt8) : Decidable (Passes g scancode) := inferInstanceAs (Decidable (_ ∨ _))

/-- **Everything the handler can do**: it inserts nothing, and may turn caps lock on or off; or it comes to the branch
of a key that is pressed, and leaves the table as it is. -/
theorem keyEvents_cases {scancode : UInt8} (h : keyEvents g (scancode :: reads) = some (events, g')) :
    (Passes g scancode ∧ events.flatMap KeyEvent.inserts = [] ∧ (g' = g ∨ g' = setCaps 0x01 g ∨ g' = setCaps 0x00 g)) ∨
      (¬Passes g scancode ∧ pressedKey g scancode reads = some events ∧ g' = g) := by
  rw [keyEvents] at h
  by_cases hignored : scan2Let g scancode = 0xFF
  · rw [if_pos hignored] at h
    cases h
    exact .inl ⟨.inl hignored, rfl, .inl rfl⟩
  rw [if_neg hignored] at h
  by_cases hoff : scancode = caps ∧ scan2Let g scancode = 0x00
  · rw [if_pos hoff] at h
    cases h
    exact .inl ⟨.inr (.inl ⟨hoff.1, .inl hoff.2⟩), rfl, .inr (.inl rfl)⟩
  rw [if_neg hoff] at h
  by_cases hon : scancode = caps ∧ scan2Let g scancode = 0x01
  · rw [if_pos hon] at h
    cases h
    exact .inl ⟨.inr (.inl ⟨hon.1, .inr hon.2⟩), rfl, .inr (.inr rfl)⟩
  rw [if_neg hon] at h
  by_cases hcntrl : scancode = cntrl
  · rw [if_pos hcntrl] at h
    obtain ⟨es, hes, heq⟩ := Option.map_eq_some_iff.mp h
    cases heq
    exact .inl ⟨.inr (.inr (.inl hcntrl)), controlKey_inserts hes, .inl rfl⟩
  rw [if_neg hcntrl] at h
  by_cases halt : scancode = alt
  · rw [if_pos halt] at h
    obtain ⟨es, hes, heq⟩ := Option.map_eq_some_iff.mp h
    cases heq
    exact .inl ⟨.inr (.inr (.inr (.inl halt))), altKey_inserts hes, .inl rfl⟩
  rw [if_neg halt] at h
  by_cases hbksp : scancode = bksp
  · rw [if_pos hbksp] at h
    cases h
    exact .inl ⟨.inr (.inr (.inr (.inr (.inl hbksp)))), rfl, .inl rfl⟩
  rw [if_neg hbksp] at h
  by_cases hpressed : scancode < scanlimit
  · rw [if_pos ((check_eq_zero_iff scancode).mpr hpressed)] at h
    obtain ⟨es, hes, heq⟩ := Option.map_eq_some_iff.mp h
    cases heq
    refine .inr ⟨?_, hes, rfl⟩
    rintro (hc | ⟨hc, hzero | hone⟩ | hc | hc | hc | hc)
    · exact hignored hc
    · exact hoff ⟨hc, hzero⟩
    · exact hon ⟨hc, hone⟩
    · exact hcntrl hc
    · exact halt hc
    · exact hbksp hc
    · exact absurd hc (UInt8.not_le.mpr hpressed)
  · rw [if_neg (fun hc => hpressed ((check_eq_zero_iff scancode).mp hc))] at h
    cases h
    exact .inl ⟨.inr (.inr (.inr (.inr (.inr (UInt8.not_lt.mp hpressed))))), rfl, .inl rfl⟩

theorem keyEvents_table (h : g.Table) (hkeys : keyEvents g reads = some (events, g')) : g'.Table := by
  cases reads with
  | nil => cases hkeys
  | cons scancode reads =>
    obtain ⟨-, -, rfl | rfl | rfl⟩ | ⟨-, -, rfl⟩ := keyEvents_cases hkeys
    · exact h
    · exact setCaps_table h (Or.inr rfl)
    · exact setCaps_table h (Or.inl rfl)
    · exact h

/-- Control and L, then anything until the control key is released. -/
theorem keyEvents_cntrl (h : g.Table) (held : List UInt8) :
    keyEvents g (cntrl :: clr :: (held ++ [uncntrl])) = some ([.clear], g) := by
  have hentry : scan2Let g cntrl = 0 := h.entry cntrl (by decide) (by decide)
  rw [keyEvents]
  rw [hentry, if_neg (by decide), if_neg (by decide), if_neg (by decide), if_pos rfl, controlKey, if_pos rfl,
    if_pos (by simp)]
  rfl

/-- The scancode of the function key of terminal `n`. -/
def fKey (n : ℤ) : UInt8 := if n = 1 then f1 else if n = 2 then f2 else f3

theorem keyEvents_alt (h : g.Table) {n : ℤ} (hn : IsTerminal n) :
    keyEvents g [alt, fKey n] = some ([.switch n], g) := by
  have hentry : scan2Let g alt = 0 := h.entry alt (by decide) (by decide)
  rw [keyEvents]
  rw [hentry, if_neg (by decide), if_neg (by decide), if_neg (by decide), if_neg (by decide), if_pos rfl]
  rcases hn with rfl | rfl | rfl <;> rfl

/-- A released key does nothing, whatever its scancode finds behind the table. -/
theorem keyEvents_released (g : KeyMap) {scancode : UInt8} (hs : scanlimit ≤ scancode) (reads : List UInt8) :
    keyEvents g (scancode :: reads) = some ([], g) := by
  have hne : ∀ c : UInt8, c < scanlimit → scancode ≠ c := by
    rintro c hc rfl
    exact absurd hs (UInt8.not_le.mpr hc)
  have hbit : ¬(scancode >>> 7) &&& 0x01 = 0 := fun hc => absurd hs (UInt8.not_le.mpr ((check_eq_zero_iff _).mp hc))
  rw [keyEvents]
  by_cases hignored : scan2Let g scancode = 0xFF
  · rw [if_pos hignored]
  · have hcaps : ∀ n, ¬(scancode = caps ∧ scan2Let g scancode = n) := fun n hc => hne caps (by decide) hc.1
    rw [if_neg hignored, if_neg (hcaps 0), if_neg (hcaps 1), if_neg (hne cntrl (by decide)),
      if_neg (hne alt (by decide)), if_neg (hne bksp (by decide)), if_neg hbit]

end ClosKernel
